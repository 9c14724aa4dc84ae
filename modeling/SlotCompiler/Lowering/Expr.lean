import SlotCompiler.Lowering.Postfix
import SlotCompiler.Source.Group

/-!
# Expressions

The tokens of an expression are read in four steps: minus signs join the tokens they sign, calls of
`choose` are replaced by the value they compute, the rest is reordered to postfix form, and the
postfix form is run. An expression of one token skips them.
-/

namespace SlotCompiler

/-- Whether a `-` after this token is a sign. -/
def expectsOperand : Option Token → Bool
  | none => true
  | some t => t.isOperator || t = "(" || t = ","

/-- Joins each sign with the token after it, whatever that is; `prev` is the token before. -/
def joinSigns (prev : Option Token) : List Token → Option (List Token)
  | [] => some []
  | [t] => if t = "-" ∧ expectsOperand prev then none else some [t]
  | t :: u :: ts =>
    if t = "-" ∧ expectsOperand prev then
      (joinSigns (some ("-" ++ u)) ts).map (("-" ++ u) :: ·)
    else
      (joinSigns (some t) (u :: ts)).map (t :: ·)

/-- Some `(` with a `)` or nothing after it. -/
def hasEmptyGroup : List Token → Bool
  | [] => false
  | t :: ts => t = "(" && ts.head?.all (· = ")") || hasEmptyGroup ts

def Term.ofToken (t : Token) : Except Cause Term :=
  match Arith.ofToken? t with
  | some a => .ok (.op a)
  | none =>
    if t = "(" then .ok .opening
    else if t = ")" then .ok .closing
    else if t.isNumeric then
      match t.number? with
      | some n => .ok (.value (.ready (.literal n)))
      | none => .error .number
    else if t.isName then .ok (.value (.var t))
    else .error .expression

def lowerSingle (t : Token) : EStateM Cause Draft Operand :=
  if t.isNumeric then
    match t.number? with
    | some n => pure (.literal n)
    | none => throw .number
  else loadVar t

def lowerPostfix (terms : List Term) : EStateM Cause Draft Operand :=
  match toPostfix [] terms with
  | none => throw .expression
  | some cells => do
    let v ← runPostfix [] cells
    v.fetch

/-- Picks the second value if the first is zero, the third if it is positive, else the fourth. -/
def lowerSelect (dest : Slot) (selector onZero onPositive onNegative : Operand) :
    EStateM Cause Draft Operand := do
  let id ← freshChoose
  let isZero ← freshTemp
  emit [
    .alloca dest,
    .test isZero .zero selector,
    .branch isZero (.chooseArm 0 id) (.chooseArm 1 id),
    .label (.chooseArm 0 id),
    .store onZero dest,
    .jump (.chooseEnd id),
    .label (.chooseArm 1 id)]
  let isPositive ← freshTemp
  emit [
    .test isPositive .positive selector,
    .branch isPositive (.chooseArm 2 id) (.chooseArm 3 id),
    .label (.chooseArm 2 id),
    .store onPositive dest,
    .jump (.chooseEnd id),
    .label (.chooseArm 3 id),
    .store onNegative dest,
    .jump (.chooseEnd id),
    .label (.chooseEnd id)]
  let result ← freshTemp
  emit [.load result dest]
  return .temp result

theorem length_joinSigns_le {prev : Option Token} {ts out : List Token}
    (h : joinSigns prev ts = some out) : out.length ≤ ts.length := by
  fun_induction joinSigns prev ts generalizing out with
  | case1 => cases h; simp
  | case2 => cases h
  | case3 => cases h; simp
  | case4 prev t u ts _ ih =>
    obtain ⟨o, ho, rfl⟩ := Option.map_eq_some_iff.mp h
    have := ih ho
    simp only [List.length_cons]; omega
  | case5 prev t u ts _ ih =>
    obtain ⟨o, ho, rfl⟩ := Option.map_eq_some_iff.mp h
    have := ih ho
    simp only [List.length_cons] at this ⊢; omega

theorem length_of_group? {ts inner rest : List Token} (h : group? ts = some (inner, rest)) :
    inner.length + rest.length + 2 = ts.length := by
  rw [eq_of_group? h]; simp; omega

theorem length_of_arguments {ts a b c d : List Token} (h : arguments ts = [a, b, c, d]) :
    a.length + b.length + c.length + d.length + 3 = ts.length := by
  have := congrArg List.length (intercalate_arguments ts)
  rw [h] at this
  simp [List.intercalate_cons_cons] at this; omega

mutual

/-- Emits the code of an expression and returns where its value is. -/
def lowerExpr (ts : List Token) : EStateM Cause Draft Operand :=
  match ts with
  | [] => throw .expression
  | [t] => lowerSingle t
  | t :: u :: more =>
    match _h : joinSigns none (t :: u :: more) with
    | none => throw .expression
    | some joined =>
      if hasEmptyGroup joined then throw .expression
      else do
        let terms ← lowerTerms joined
        lowerPostfix terms
termination_by 3 * ts.length + 1
decreasing_by
  have := length_joinSigns_le _h
  simp only [List.length_cons] at this ⊢
  omega

/-- The terms of an expression, with every call replaced by its value. -/
def lowerTerms (ts : List Token) : EStateM Cause Draft (List Term) :=
  match ts with
  | [] => pure []
  | t :: ts =>
    if t = "choose" then
      match _h : group? ts with
      | none => throw .group
      | some (inner, rest) => do
        let v ← lowerChoose inner
        let terms ← lowerTerms rest
        return .value (.ready v) :: terms
    else
      match Term.ofToken t with
      | .error c => throw c
      | .ok term => do
        let terms ← lowerTerms ts
        return term :: terms
termination_by 3 * ts.length
decreasing_by
  all_goals simp only [List.length_cons]
  all_goals try have := length_of_group? _h
  all_goals omega

/-- Emits the code of a call of `choose` on the tokens inside its parentheses. -/
def lowerChoose (ts : List Token) : EStateM Cause Draft Operand := do
  let dest ← freshTemp
  match _h : arguments ts with
  | [selector, onZero, onPositive, onNegative] =>
    let s ← lowerExpr selector
    let z ← lowerExpr onZero
    let p ← lowerExpr onPositive
    let n ← lowerExpr onNegative
    lowerSelect (.temp dest) s z p n
  | _ => throw .arguments
termination_by 3 * ts.length + 2
decreasing_by
  all_goals have := length_of_arguments _h
  all_goals omega

end

/-! ## Equations -/

theorem lowerExpr_nil : lowerExpr [] = throw .expression := by rw [lowerExpr]

theorem lowerExpr_singleton (t : Token) : lowerExpr [t] = lowerSingle t := by rw [lowerExpr]

theorem lowerExpr_cons_cons (t u : Token) (more : List Token) :
    lowerExpr (t :: u :: more) = (
      match joinSigns none (t :: u :: more) with
      | none => throw .expression
      | some joined =>
        if hasEmptyGroup joined then throw .expression
        else do
          let terms ← lowerTerms joined
          lowerPostfix terms) := by
  rw [lowerExpr]
  split <;> rename_i h <;> simp only [h]

theorem lowerTerms_nil : lowerTerms [] = pure [] := by rw [lowerTerms]

theorem lowerTerms_cons (t : Token) (ts : List Token) :
    lowerTerms (t :: ts) = (
      if t = "choose" then
        match group? ts with
        | none => throw .group
        | some (inner, rest) => do
          let v ← lowerChoose inner
          let terms ← lowerTerms rest
          return .value (.ready v) :: terms
      else
        match Term.ofToken t with
        | .error c => throw c
        | .ok term => do
          let terms ← lowerTerms ts
          return term :: terms) := by
  rw [lowerTerms]
  split
  · split <;> rename_i h <;> simp only [h]
  · rfl

theorem lowerChoose_eq (ts : List Token) :
    lowerChoose ts = (do
      let dest ← freshTemp
      match arguments ts with
      | [selector, onZero, onPositive, onNegative] =>
        let s ← lowerExpr selector
        let z ← lowerExpr onZero
        let p ← lowerExpr onPositive
        let n ← lowerExpr onNegative
        lowerSelect (.temp dest) s z p n
      | _ => throw .arguments) := by
  rw [lowerChoose]
  refine bind_congr fun dest => ?_
  split
  · rename_i h; simp only [h]
  · rename_i h
    split
    · rename_i h'; exact absurd h' (h _ _ _ _)
    · rfl

end SlotCompiler
