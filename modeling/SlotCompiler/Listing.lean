import SlotCompiler.Code.Text
import SlotCompiler.Lowering.Lines

/-!
# Listings

A listing is the text of a compiled source, with the verdict on it. A rejected source has a listing
too: the module that prints the blamed line.
-/

namespace SlotCompiler

inductive Verdict
  | accepted
  | rejected (line : Nat)
  deriving DecidableEq, Repr

structure Listing where
  text : String
  verdict : Verdict
  deriving DecidableEq, Repr

/-- The code of a program. Every variable gets its slot before the first statement. -/
def lowerProgram (lines : List Line) : Except SyntaxError (List Instr) :=
  match (lowerLines lines).run (Draft.hoist {} lines) with
  | .ok _ d => .ok d.code
  | .error e _ => .error e

def lowerSource (source : String) : Except SyntaxError (List Instr) :=
  lowerProgram (readLines source)

def compile (source : String) : Listing :=
  match lowerSource source with
  | .ok code => ⟨moduleText code, .accepted⟩
  | .error e => ⟨errorModule e.line, .rejected e.line⟩

end SlotCompiler
