import SlotCompiler.Code.Machine

/-!
# Expressions of the language

The value of an expression, and the token lists that spell it. A sum is a chain of products and a
product a chain of factors, both grouping to the left; a level says which of the three may stand at
a place.
-/

namespace SlotCompiler

inductive Expr
  | lit (n : Int32)
  | var (x : String)
  | op (a : Arith) (l r : Expr)
  /-- The second value if the first is zero, the third if it is positive, else the fourth. -/
  | choose (selector onZero onPositive onNegative : Expr)
  deriving DecidableEq, Repr

abbrev Env := String → Int32

namespace Expr

/-- Every part is evaluated; there is no value where one of them divides by zero. -/
def eval? (env : Env) : Expr → Option Int32
  | .lit n => some n
  | .var x => some (env x)
  | .op a l r => do a.apply? (← l.eval? env) (← r.eval? env)
  | .choose selector onZero onPositive onNegative => do
    let s ← selector.eval? env
    let z ← onZero.eval? env
    let p ← onPositive.eval? env
    let n ← onNegative.eval? env
    return if s = 0 then z else if 0 < s then p else n

/-- Nothing is divided by the literal zero. -/
def NoZeroDivisor : Expr → Prop
  | .lit _ | .var _ => True
  | .op a l r => l.NoZeroDivisor ∧ r.NoZeroDivisor ∧ ¬(a = .div ∧ r = .lit 0)
  | .choose s z p n => s.NoZeroDivisor ∧ z.NoZeroDivisor ∧ p.NoZeroDivisor ∧ n.NoZeroDivisor

end Expr

def Arith.token : Arith → Token
  | .add => "+"
  | .sub => "-"
  | .mul => "*"
  | .div => "/"

/-- Starts with a digit. -/
def Token.isDigits (t : Token) : Bool := t.toList.head?.any Char.isDigit

/-- The token lists that spell an expression at a level: 1 for sums, 2 for products, 3 for
factors. -/
inductive Spelled : Nat → Expr → List Token → Prop
  | int {t : Token} {n : Int32} : t.isDigits → t.number? = some n → Spelled 3 (.lit n) [t]
  | negative {t : Token} {n : Int32} :
    t.isDigits → Token.number? ("-" ++ t) = some n → Spelled 3 (.lit n) ["-", t]
  | var {x : Token} : x.isName → Spelled 3 (.var x) [x]
  | paren {e : Expr} {ts : List Token} : Spelled 1 e ts → Spelled 3 e ("(" :: (ts ++ [")"]))
  | choose {s z p n : Expr} {ss zs ps ns : List Token} :
    Spelled 1 s ss → Spelled 1 z zs → Spelled 1 p ps → Spelled 1 n ns →
    Spelled 3 (.choose s z p n) ("choose" :: "(" :: ([","].intercalate [ss, zs, ps, ns] ++ [")"]))
  | op {a : Arith} {l r : Expr} {ls rs : List Token} :
    Spelled a.rank l ls → Spelled (a.rank + 1) r rs →
    Spelled a.rank (.op a l r) (ls ++ a.token :: rs)
  | lower {k : Nat} {e : Expr} {ts : List Token} : Spelled (k + 1) e ts → Spelled k e ts

end SlotCompiler
