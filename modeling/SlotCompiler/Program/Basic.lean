import SlotCompiler.Code.Text
import SlotCompiler.Program.Expr
import SlotCompiler.Source.Form

/-!
# Programs of the language

What a program prints, and the sources that lay it out with one statement on each line.
-/

namespace SlotCompiler

/-- A sequence of statements. -/
inductive Program
  | done
  | assign (x : String) (e : Expr) (next : Program)
  | print (e : Expr) (next : Program)
  | control (c : Control) (cond : Expr) (body next : Program)
  deriving DecidableEq, Repr

namespace Program

inductive Outcome
  | finished (env : Env) (printed : List Int32)
  | fault (printed : List Int32)
  | unfinished

/-- Runs a program from an environment, after something was printed. An outcome other than
`unfinished` does not depend on the fuel. -/
def run : Nat → Program → Env → List Int32 → Outcome
  | 0, _, _, _ => .unfinished
  | _ + 1, .done, env, out => .finished env out
  | fuel + 1, .assign x e next, env, out =>
    match e.eval? env with
    | none => .fault out
    | some v => run fuel next (fun y => if y = x then v else env y) out
  | fuel + 1, .print e next, env, out =>
    match e.eval? env with
    | none => .fault out
    | some v => run fuel next env (out ++ [v])
  | fuel + 1, .control c cond body next, env, out =>
    match cond.eval? env with
    | none => .fault out
    | some v =>
      if v = 0 then run fuel next env out
      else
        match run fuel body env out with
        | .finished env out =>
          run fuel (if c = .loop then .control c cond body next else next) env out
        | o => o

def NoZeroDivisor : Program → Prop
  | .done => True
  | .assign _ e next => e.NoZeroDivisor ∧ next.NoZeroDivisor
  | .print e next => e.NoZeroDivisor ∧ next.NoZeroDivisor
  | .control _ cond body next =>
    cond.NoZeroDivisor ∧ body.NoZeroDivisor ∧ next.NoZeroDivisor

end Program

def Control.keyword : Control → Token
  | .branch => "if"
  | .loop => "while"

/-- The lines of a program, every statement, header and closing brace on one of its own. -/
inductive Laid : Program → List (List Token) → Prop
  | done : Laid .done []
  | assign {x : Token} {e : Expr} {next : Program} {ts : List Token} {ls : List (List Token)} :
    x.isName → Spelled 1 e ts → Laid next ls → Laid (.assign x e next) ((x :: "=" :: ts) :: ls)
  | print {e : Expr} {next : Program} {ts : List Token} {ls : List (List Token)} :
    Spelled 1 e ts → Laid next ls →
    Laid (.print e next) (("print" :: "(" :: (ts ++ [")"])) :: ls)
  | control {c : Control} {cond : Expr} {body next : Program} {ts : List Token}
      {bs ls : List (List Token)} :
    Spelled 1 cond ts → Laid body bs → Laid next ls →
    Laid (.control c cond body next)
      ((c.keyword :: "(" :: (ts ++ [")", openBrace])) :: (bs ++ [closeBrace] :: ls))

/-- A source with the given tokens on its lines. -/
def sourceText (ls : List (List Token)) : String := unlines (ls.map (" ".intercalate ·))

end SlotCompiler
