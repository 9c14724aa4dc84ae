import SlotCompiler.Code.Instr

/-!
# The machine

A routine runs one instruction at a time, from its first instruction until it is past its last.
Arithmetic wraps around at 32 bits. A division by zero is a fault; a value that was never defined,
or a label that is not there, leaves the machine stuck.
-/

namespace SlotCompiler

def Arith.apply? : Arith → Int32 → Int32 → Option Int32
  | .add, a, b => some (a + b)
  | .sub, a, b => some (a - b)
  | .mul, a, b => some (a * b)
  | .div, a, b => if b = 0 then none else some (a / b)

def Test.holds : Test → Int32 → Bool
  | .zero, v => v = 0
  | .nonzero, v => v ≠ 0
  | .positive, v => 0 < v

inductive Printed
  | value (v : Int32)
  | blame (line : Nat)
  deriving DecidableEq, Repr

structure Machine where
  pc : Nat := 0
  values : Nat → Option Int32 := fun _ => none
  flags : Nat → Option Bool := fun _ => none
  slots : Slot → Option Int32 := fun _ => none
  printed : List Printed := []

namespace Machine

inductive Outcome
  | running (m : Machine)
  | done (printed : List Printed)
  | fault (printed : List Printed)
  | stuck

section
variable (m : Machine)

def value? : Operand → Option Int32
  | .literal v => some v
  | .temp id => m.values id

def next : Machine := { m with pc := m.pc + 1 }

def setValue (id : Nat) (v : Int32) : Machine :=
  { m with values := fun i => if i = id then some v else m.values i }

def setFlag (id : Nat) (b : Bool) : Machine :=
  { m with flags := fun i => if i = id then some b else m.flags i }

def setSlot (slot : Slot) (v : Int32) : Machine :=
  { m with slots := fun s => if s = slot then some v else m.slots s }

def print (p : Printed) : Machine := { m with printed := m.printed ++ [p] }

def jump (code : List Instr) (target : Label) : Outcome :=
  match code.idxOf? (.label target) with
  | some pc => .running { m with pc }
  | none => .stuck

/-- What one instruction does. -/
def exec (code : List Instr) : Instr → Outcome
  | .alloca slot => .running (m.setSlot slot 0).next
  | .store value slot =>
    match m.value? value, m.slots slot with
    | some v, some _ => .running (m.setSlot slot v).next
    | _, _ => .stuck
  | .load dest slot =>
    match m.slots slot with
    | some v => .running (m.setValue dest v).next
    | none => .stuck
  | .arith dest op lhs rhs =>
    match m.value? lhs, m.value? rhs with
    | some a, some b =>
      match op.apply? a b with
      | some v => .running (m.setValue dest v).next
      | none => .fault m.printed
    | _, _ => .stuck
  | .test dest kind value =>
    match m.value? value with
    | some v => .running (m.setFlag dest (kind.holds v)).next
    | none => .stuck
  | .branch cond yes no =>
    match m.flags cond with
    | some b => m.jump code (if b then yes else no)
    | none => .stuck
  | .jump target => m.jump code target
  | .label _ => .running m.next
  | .print value =>
    match m.value? value with
    | some v => .running (m.print (.value v)).next
    | none => .stuck
  | .printError line => .running (m.print (.blame line)).next

def step (code : List Instr) : Outcome :=
  match code[m.pc]? with
  | some i => m.exec code i
  | none => .done m.printed

end

/-- At most `fuel` steps. -/
def run (code : List Instr) : Nat → Machine → Outcome
  | 0, m => .running m
  | fuel + 1, m =>
    match m.step code with
    | .running m' => run code fuel m'
    | o => o

end Machine

end SlotCompiler
