import SlotCompiler.Lowering.Expr
import SlotCompiler.Source.Block
import SlotCompiler.Source.Form

/-!
# Statements

`lowerLines` emits the code of the statement on the first line and goes on with what is left: the
lines that follow, or, after a header, the body of its block and what stands behind it.
-/

namespace SlotCompiler

namespace Control

def fresh {ε : Type} : Control → EStateM ε Draft Nat
  | .branch => freshIf
  | .loop => freshWhile

/-- The code in front of the condition. -/
def enter : Control → Nat → List Instr
  | .branch, _ => []
  | .loop, id => [.jump (.whileTest id), .label (.whileTest id)]

def body : Control → Nat → Label
  | .branch, id => .ifBody id
  | .loop, id => .whileBody id

/-- Where the end of the body jumps to. -/
def back : Control → Nat → Label
  | .branch, id => .ifEnd id
  | .loop, id => .whileTest id

def exit : Control → Nat → Label
  | .branch, id => .ifEnd id
  | .loop, id => .whileEnd id

end Control

def lowerPrint (expr : List Token) : EStateM Cause Draft Unit := do
  let value ← lowerExpr expr
  emit [.print value]

def lowerAssign (target : Token) (expr : List Token) : EStateM Cause Draft Unit := do
  let slot ← declare target
  let value ← lowerExpr expr
  emit [.store value slot]

/-- Tests a condition, and enters the body if it is not zero. -/
def lowerTest (cond : List Token) (body exit : Label) : EStateM Cause Draft Unit := do
  let value ← lowerExpr cond
  let dest ← freshTemp
  emit [.test dest .nonzero value, .branch dest body exit, .label body]

/-- Blames a failure on a line. -/
def atLine {α : Type} (line : Nat) (x : EStateM Cause Draft α) : EStateM SyntaxError Draft α :=
  x.adaptExcept (⟨line, ·⟩)

/-- Emits the code of a sequence of statements. -/
def lowerLines (lines : List Line) : EStateM SyntaxError Draft Unit :=
  match lines with
  | [] => pure ()
  | line :: following =>
    match _hs : Form.ofTokens line.tokens with
    | .error c => throw ⟨line.number, c⟩
    | .ok .blank => lowerLines following
    | .ok (.print expr) => do
      atLine line.number (lowerPrint expr)
      lowerLines following
    | .ok (.assign target expr) => do
      atLine line.number (lowerAssign target expr)
      lowerLines following
    | .ok (.control c tokens) => do
      let id ← c.fresh
      emit (c.enter id)
      match _hg : group? tokens with
      | none => throw ⟨line.number, .group⟩
      | some (cond, rest) =>
        atLine line.number (lowerTest cond (c.body id) (c.exit id))
        match _hb : Block.cut ⟨line.number, rest⟩ following with
        | .error e => throw e
        | .ok block =>
          lowerLines block.body
          emit [.jump (c.back id), .label (c.exit id)]
          lowerLines block.remaining
termination_by bulk lines
decreasing_by
  all_goals simp only [bulk_cons]
  · omega
  · omega
  · omega
  all_goals
    have hs := Form.length_lt_of_control _hs
    have hg := length_of_group? _hg
    have hb := Block.bulk_cut_lt _hb
    simp only [bulk_cons] at hb
    omega

theorem lowerLines_nil : lowerLines [] = pure () := by rw [lowerLines]

theorem lowerLines_cons (line : Line) (following : List Line) :
    lowerLines (line :: following) = (
      match Form.ofTokens line.tokens with
      | .error c => throw ⟨line.number, c⟩
      | .ok .blank => lowerLines following
      | .ok (.print expr) => do
        atLine line.number (lowerPrint expr)
        lowerLines following
      | .ok (.assign target expr) => do
        atLine line.number (lowerAssign target expr)
        lowerLines following
      | .ok (.control c tokens) => do
        let id ← c.fresh
        emit (c.enter id)
        match group? tokens with
        | none => throw ⟨line.number, .group⟩
        | some (cond, rest) =>
          atLine line.number (lowerTest cond (c.body id) (c.exit id))
          match Block.cut ⟨line.number, rest⟩ following with
          | .error e => throw e
          | .ok block =>
            lowerLines block.body
            emit [.jump (c.back id), .label (c.exit id)]
            lowerLines block.remaining) := by
  rw [lowerLines]
  split <;> rename_i h <;> simp only [h]
  refine bind_congr fun id => bind_congr fun _ => ?_
  split <;> rename_i h <;> simp only [h]
  refine bind_congr fun _ => ?_
  split <;> rename_i h <;> simp only [h]

end SlotCompiler
