import SlotCompiler.Source.Token

/-!
# Instructions

The routine is a flat list of instructions. Values live in numbered temporaries, each defined once;
what changes lives in stack slots; labels mark where branches and jumps land.
-/

namespace SlotCompiler

inductive Arith
  | add | sub | mul | div
  deriving DecidableEq, Repr

namespace Arith

def ofToken? (t : Token) : Option Arith :=
  if t = "+" then some .add
  else if t = "-" then some .sub
  else if t = "*" then some .mul
  else if t = "/" then some .div
  else none

/-- How tight an operator binds. -/
def rank : Arith → Nat
  | .add | .sub => 1
  | .mul | .div => 2

end Arith

def Token.isOperator (t : Token) : Bool := (Arith.ofToken? t).isSome

/-- A comparison with zero. -/
inductive Test
  | zero | nonzero | positive
  deriving DecidableEq, Repr

inductive Operand
  | literal (value : Int32)
  | temp (id : Nat)
  deriving DecidableEq, Repr

/-- A stack slot, named by a variable or by a temporary. -/
inductive Slot
  | var (name : String)
  | temp (id : Nat)
  deriving DecidableEq, Repr

/-- Each construct numbers its own labels. -/
inductive Label
  | ifBody (id : Nat)
  | ifEnd (id : Nat)
  | whileTest (id : Nat)
  | whileBody (id : Nat)
  | whileEnd (id : Nat)
  | chooseArm (arm id : Nat)
  | chooseEnd (id : Nat)
  deriving DecidableEq, Repr

inductive Instr
  | alloca (slot : Slot)
  | store (value : Operand) (slot : Slot)
  | load (dest : Nat) (slot : Slot)
  | arith (dest : Nat) (op : Arith) (lhs rhs : Operand)
  | test (dest : Nat) (kind : Test) (value : Operand)
  | branch (cond : Nat) (yes no : Label)
  | jump (target : Label)
  | label (here : Label)
  | print (value : Operand)
  | printError (line : Nat) -- prints the message for a rejected line
  deriving DecidableEq, Repr

end SlotCompiler
