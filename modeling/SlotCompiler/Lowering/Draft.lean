import SlotCompiler.Code.Instr
import SlotCompiler.Source.Line
import SlotCompiler.Source.SyntaxError

/-!
# Drafts

A draft is a routine under construction: the ids handed out so far, the variables that have a slot,
in the order they got it, and the code. Steps run in `EStateM`, so a step that fails leaves the
draft as it was at the failure.
-/

namespace SlotCompiler

structure Draft where
  temps : Nat := 0 -- the last temporary handed out; they are numbered from 1
  ifs : Nat := 0
  whiles : Nat := 0
  chooses : Nat := 0
  vars : List String := []
  code : List Instr := []
  deriving DecidableEq, Repr

namespace Draft

def push (d : Draft) (code : List Instr) : Draft := { d with code := d.code ++ code }

/-- Gives a variable its slot, set to zero, unless it has one. -/
def allocate (d : Draft) (x : String) : Draft :=
  if x ∈ d.vars then d
  else { d with vars := d.vars ++ [x] }.push [.alloca (.var x), .store (.literal 0) (.var x)]

/-- Gives a slot to every name on the lines, in order of appearance. -/
def hoist (d : Draft) (lines : List Line) : Draft :=
  ((lines.flatMap Line.tokens).filter Token.isName).foldl allocate d

end Draft

section
variable {ε : Type}

def emit (code : List Instr) : EStateM ε Draft Unit := modify (·.push code)

def freshTemp : EStateM ε Draft Nat :=
  modifyGet fun d => (d.temps + 1, { d with temps := d.temps + 1 })

def freshIf : EStateM ε Draft Nat :=
  modifyGet fun d => (d.ifs, { d with ifs := d.ifs + 1 })

def freshWhile : EStateM ε Draft Nat :=
  modifyGet fun d => (d.whiles, { d with whiles := d.whiles + 1 })

def freshChoose : EStateM ε Draft Nat :=
  modifyGet fun d => (d.chooses, { d with chooses := d.chooses + 1 })

@[simp] theorem emit_run (code : List Instr) (d : Draft) :
    (emit code : EStateM ε Draft Unit).run d = .ok () (d.push code) := rfl

@[simp] theorem freshTemp_run (d : Draft) :
    (freshTemp : EStateM ε Draft Nat).run d = .ok (d.temps + 1) { d with temps := d.temps + 1 } := rfl

@[simp] theorem freshIf_run (d : Draft) :
    (freshIf : EStateM ε Draft Nat).run d = .ok d.ifs { d with ifs := d.ifs + 1 } := rfl

@[simp] theorem freshWhile_run (d : Draft) :
    (freshWhile : EStateM ε Draft Nat).run d = .ok d.whiles { d with whiles := d.whiles + 1 } := rfl

@[simp] theorem freshChoose_run (d : Draft) :
    (freshChoose : EStateM ε Draft Nat).run d = .ok d.chooses { d with chooses := d.chooses + 1 } := rfl

end

/-- The slot of a variable, allocated at first sight. -/
def declare (x : Token) : EStateM Cause Draft Slot :=
  if x.isName then do
    modify (·.allocate x)
    return .var x
  else throw .name

def loadVar (x : Token) : EStateM Cause Draft Operand := do
  let slot ← declare x
  let dest ← freshTemp
  emit [.load dest slot]
  return .temp dest

end SlotCompiler
