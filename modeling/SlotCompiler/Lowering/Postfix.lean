import SlotCompiler.Lowering.Draft

/-!
# Postfix form

Infix terms are reordered with a stack of pending operators: a term on the stack waits for its right
operand, a parenthesis for its partner. Operators of equal rank leave the stack first, so they
associate to the left. Postfix terms then run on a stack of values.
-/

namespace SlotCompiler

/-- A value that may still have to be loaded. -/
inductive Value
  | ready (operand : Operand)
  | var (name : String)
  deriving DecidableEq, Repr

/-- A piece of an infix expression. -/
inductive Term
  | value (v : Value)
  | op (a : Arith)
  | opening
  | closing
  deriving DecidableEq, Repr

/-- A piece of a postfix expression. -/
inductive Cell
  | value (v : Value)
  | op (a : Arith)
  deriving DecidableEq, Repr

inductive Pending
  | op (a : Arith)
  | paren
  deriving DecidableEq, Repr

/-- Takes the operators of at least this rank off the top. -/
def release (rank : Nat) : List Pending → List Cell × List Pending
  | .op a :: stack =>
    if rank ≤ a.rank then
      let (out, left) := release rank stack
      (.op a :: out, left)
    else ([], .op a :: stack)
  | stack => ([], stack)

/-- Takes the operators above the top parenthesis off, and the parenthesis. -/
def closeParen : List Pending → Option (List Cell × List Pending)
  | [] => none
  | .paren :: stack => some ([], stack)
  | .op a :: stack => (closeParen stack).map fun (out, left) => (.op a :: out, left)

/-- Takes off all operators; no parenthesis may be left. -/
def drain : List Pending → Option (List Cell)
  | [] => some []
  | .paren :: _ => none
  | .op a :: stack => (drain stack).map (.op a :: ·)

/-- Fails just if the parentheses do not match. -/
def toPostfix (stack : List Pending) : List Term → Option (List Cell)
  | [] => drain stack
  | .value v :: ts => (toPostfix stack ts).map (.value v :: ·)
  | .op a :: ts =>
    let (out, left) := release a.rank stack
    (toPostfix (.op a :: left) ts).map (out ++ ·)
  | .opening :: ts => toPostfix (.paren :: stack) ts
  | .closing :: ts =>
    (closeParen stack).bind fun (out, left) => (toPostfix left ts).map (out ++ ·)

def Value.fetch : Value → EStateM Cause Draft Operand
  | .ready operand => pure operand
  | .var name => loadVar name

/-- One operation; the right operand is fetched before the left one. -/
def lowerArith (a : Arith) (l r : Value) : EStateM Cause Draft Value := do
  let rhs ← r.fetch
  let lhs ← l.fetch
  if a = .div ∧ rhs = .literal 0 then throw .zeroDivisor
  else
    let dest ← freshTemp
    emit [.arith dest a lhs rhs]
    return .ready (.temp dest)

/-- Runs to the one value that is left. -/
def runPostfix : List Value → List Cell → EStateM Cause Draft Value
  | stack, .value v :: cs => runPostfix (v :: stack) cs
  | r :: l :: stack, .op a :: cs => do
    let v ← lowerArith a l r
    runPostfix (v :: stack) cs
  | [v], [] => pure v
  | _, _ => throw .expression

end SlotCompiler
