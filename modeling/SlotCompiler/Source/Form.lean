import SlotCompiler.Source.SyntaxError
import SlotCompiler.Source.Token

/-!
# Forms of lines

What a line does is read off its first two tokens; its expressions stay tokens.
-/

namespace SlotCompiler

/-- The two statements with a block, `if` and `while`. -/
inductive Control
  | branch | loop
  deriving DecidableEq, Repr

inductive Form
  | blank
  | print (expr : List Token)
  | assign (target : Token) (expr : List Token)
  | control (c : Control) (tokens : List Token) -- what stands after the keyword
  deriving DecidableEq, Repr

def Form.ofTokens : List Token → Except Cause Form
  | [] => .ok .blank
  | first :: second :: third :: more =>
    let tokens := first :: second :: third :: more
    if tokens.count "(" ≠ tokens.count ")" then .error .parentheses
    else if first = "print" then
      if second = "(" ∧ (third :: more).getLast? = some ")" then .ok (.print (third :: more).dropLast)
      else .error .statement
    else if first = "if" then .ok (.control .branch (second :: third :: more))
    else if first = "while" then .ok (.control .loop (second :: third :: more))
    else if second = "=" then .ok (.assign first (third :: more))
    else .error .statement
  | _ => .error .short

theorem Form.length_lt_of_control {ts tokens : List Token} {c : Control}
    (h : ofTokens ts = .ok (.control c tokens)) : tokens.length < ts.length := by
  unfold ofTokens at h
  split at h
  · cases h
  · simp only at h
    split at h
    · cases h
    split at h
    · split at h <;> cases h
    split at h
    · cases h; simp
    split at h
    · cases h; simp
    split at h <;> cases h
  · cases h

end SlotCompiler
