import SlotCompiler.Proofs.Groups
import SlotCompiler.Proofs.Renumbering

/-!
# Expressions read by position

The lowering takes lists apart from the front. Here the same expressions are read by position: groups
and arguments are slices between two positions, and the depth of parentheses is a number that is
counted down. An access out of range, or a number that would fall below zero, is a trap. There is
none: `Indexed.lowerExpr_eq`, and reading by position leads to the same code.
-/

namespace SlotCompiler

/-- How a run that reads by position stops early: with an access out of range, or with an error. -/
inductive Trap (ε : Type)
  | range
  | error (e : ε)
  deriving DecidableEq, Repr

def Trap.map {ε ε' : Type} (f : ε → ε') : Trap ε → Trap ε'
  | .range => .range
  | .error e => .error (f e)

section
variable {ε α β : Type}

def checked (x : EStateM ε Draft α) : EStateM (Trap ε) Draft α := x.adaptExcept .error

theorem checked_bind (x : EStateM ε Draft α) (f : α → EStateM ε Draft β) :
    checked (x >>= f) = checked x >>= fun a => checked (f a) :=
  adaptExcept_bind _ x f

theorem checked_fresh (c : Control) : checked (c.fresh : EStateM ε Draft Nat) = c.fresh :=
  adaptExcept_fresh _ c

theorem checked_ne_range (x : EStateM ε Draft α) (d d' : Draft) : (checked x).run d ≠ .error .range d' := by
  rw [checked, EStateM.run_adaptExcept]
  cases x.run d <;> simp

end

namespace Indexed

/-! ## Accesses -/

section
variable {ε α : Type}

def get (xs : List α) (i : Nat) : Except (Trap ε) α :=
  match xs[i]? with
  | some x => .ok x
  | none => .error .range

def sliceFrom (xs : List α) (i : Nat) : Except (Trap ε) (List α) :=
  if i ≤ xs.length then .ok (xs.drop i) else .error .range

def slice (xs : List α) (i j : Nat) : Except (Trap ε) (List α) :=
  if i ≤ j ∧ j ≤ xs.length then .ok ((xs.take j).drop i) else .error .range

def minus (n k : Nat) : Except (Trap ε) Nat := if k ≤ n then .ok (n - k) else .error .range

variable {xs ys : List α} {i : Nat}

theorem get_append (xs ys : List α) (x : α) : get (xs ++ x :: ys) xs.length = (.ok x : Except (Trap ε) α) := by
  simp [get]

theorem sliceFrom_append (xs ys : List α) :
    sliceFrom (xs ++ ys) xs.length = (.ok ys : Except (Trap ε) (List α)) := by
  simp [sliceFrom]

theorem eq_of_sliceFrom (h : sliceFrom xs i = (.ok ys : Except (Trap ε) (List α))) : ys = xs.drop i := by
  unfold sliceFrom at h
  split at h
  · exact (Except.ok.inj h).symm
  · cases h

theorem slice_append (h : i ≤ xs.length) (ys : List α) :
    slice (xs ++ ys) i xs.length = (.ok (xs.drop i) : Except (Trap ε) (List α)) := by
  simp [slice, h]

theorem minus_succ (n : Nat) : minus (n + 1) 1 = (.ok n : Except (Trap ε) Nat) := by
  simp [minus]

example : slice [1, 2, 3] 2 1 = (.error .range : Except (Trap Cause) (List Nat)) := by decide

end

/-! ## Groups -/

def orError {α : Type} (c : Cause) : Option α → Except (Trap Cause) α
  | some a => .ok a
  | none => .error (.error c)

/-- Looks for the end of the group that opens at `start`, from position `idx` on. -/
def seekClose (tokens : List Token) (start idx depth : Nat) :
    List Token → Except (Trap Cause) (List Token × Nat)
  | [] => .error (.error .group)
  | t :: ts =>
    if t = "(" then seekClose tokens start (idx + 1) (depth + 1) ts
    else if t = ")" then
      if depth = 0 then do
        let inner ← slice tokens (start + 1) idx
        return (inner, idx + 1)
      else do
        let depth ← minus depth 1
        seekClose tokens start (idx + 1) depth ts
    else seekClose tokens start (idx + 1) depth ts

/-- What is inside the group that opens at `start`, and the position after its `)`. -/
def group (tokens : List Token) (start : Nat) : Except (Trap Cause) (List Token × Nat) :=
  if tokens[start]? = some "(" then seekClose tokens start (start + 1) 0 (tokens.drop (start + 1))
  else .error (.error .group)

theorem seekClose_eq {front : List Token} {start : Nat} (h : start < front.length) (ts : List Token)
    (depth : Nat) :
    seekClose (front ++ ts) start front.length depth ts =
      orError .group ((closeGroup depth ts).map fun (inner, _) =>
        (front.drop (start + 1) ++ inner, front.length + inner.length + 1)) := by
  induction ts generalizing front depth with
  | nil => rfl
  | cons t ts ih =>
    have hstep (depth : Nat) : seekClose (front ++ t :: ts) start (front.length + 1) depth ts =
        orError .group ((closeGroup depth ts).map fun (inner, _) =>
          (front.drop (start + 1) ++ t :: inner, front.length + (inner.length + 1) + 1)) := by
      have hmove : front ++ t :: ts = (front ++ [t]) ++ ts := by simp
      have hlen : front.length + 1 = (front ++ [t]).length := by simp
      have hdrop : (front ++ [t]).drop (start + 1) = front.drop (start + 1) ++ [t] :=
        List.drop_append_of_le_length h
      rw [hmove, hlen, ih (by simp; omega), hdrop]
      refine congrArg (fun f => orError .group ((closeGroup depth ts).map f)) (funext fun parts => ?_)
      simp only [List.append_assoc, List.singleton_append, List.length_append, List.length_singleton,
        Prod.mk.injEq, true_and]
      omega
    rw [seekClose, closeGroup.eq_def]
    by_cases ho : t = "("
    · have hc : t ≠ ")" := by rw [ho]; decide
      simp only [if_pos ho, if_neg hc, hstep, Option.map_map]
      rfl
    by_cases hc : t = ")"
    · simp only [if_neg ho, if_pos hc]
      cases depth with
      | zero =>
        simp only [if_true, slice_append (Nat.succ_le_of_lt h)]
        simp [pure, Except.pure, bind, Except.bind, orError]
      | succ depth =>
        rw [if_neg (Nat.succ_ne_zero depth), minus_succ, Option.map_map]
        exact hstep depth
    · simp only [if_neg ho, if_neg hc, hstep, Option.map_map]
      rfl

theorem group_eq (tokens : List Token) (start : Nat) :
    group tokens start = orError .group (groupAt? tokens start) := by
  unfold group groupAt?
  by_cases hlt : start < tokens.length
  · have hfront : start < (tokens.take (start + 1)).length := by simp; omega
    have hseek := seekClose_eq hfront (tokens.drop (start + 1)) 0
    have hlen : (tokens.take (start + 1)).length = start + 1 := by simp; omega
    rw [List.take_append_drop, hlen, List.drop_take_self] at hseek
    rw [List.drop_eq_getElem_cons hlt, List.getElem?_eq_getElem hlt, group?]
    by_cases ht : tokens[start] = "("
    · simp only [ht, if_true, hseek]
      refine congrArg (fun f => orError .group (Option.map f _)) (funext fun parts => ?_)
      simp only [List.nil_append, Prod.mk.injEq, true_and]
      omega
    · simp [ht, orError]
  · have hge : tokens.length ≤ start := Nat.le_of_not_lt hlt
    rw [List.drop_eq_nil_of_le hge, List.getElem?_eq_none hge]
    rfl

/-! ## Arguments -/

/-- Cuts off the argument that begins at `start`, from position `idx` on. -/
def cutArguments (tokens : List Token) (start idx depth : Nat) :
    List Token → Except (Trap Cause) (List (List Token))
  | [] => do
    let last ← sliceFrom tokens start
    return [last]
  | t :: ts =>
    if t = "(" then cutArguments tokens start (idx + 1) (depth + 1) ts
    else if t = ")" then cutArguments tokens start (idx + 1) (depth - 1) ts
    else if t = "," ∧ depth = 0 then do
      let arg ← slice tokens start idx
      let args ← cutArguments tokens (idx + 1) (idx + 1) depth ts
      return arg :: args
    else cutArguments tokens start (idx + 1) depth ts

def arguments (tokens : List Token) : Except (Trap Cause) (List (List Token)) :=
  cutArguments tokens 0 0 0 tokens

theorem cutArguments_eq {front : List Token} {start : Nat} (h : start ≤ front.length) (ts : List Token)
    (depth : Nat) :
    cutArguments (front ++ ts) start front.length depth ts =
      .ok ((front.drop start ++ (splitArguments depth ts).1) :: (splitArguments depth ts).2) := by
  induction ts generalizing front start depth with
  | nil =>
    have hlast : sliceFrom (front ++ []) start = (.ok (front.drop start) : Except (Trap Cause) _) := by
      simp [sliceFrom, h]
    rw [cutArguments, hlast]
    simp [pure, Except.pure, bind, Except.bind, splitArguments]
  | cons t ts ih =>
    have hstep (start : Nat) (h : start ≤ (front ++ [t]).length) (depth : Nat) :
        cutArguments (front ++ t :: ts) start (front.length + 1) depth ts =
          .ok (((front ++ [t]).drop start ++ (splitArguments depth ts).1) :: (splitArguments depth ts).2) := by
      have hmove : front ++ t :: ts = (front ++ [t]) ++ ts := by simp
      have hlen : front.length + 1 = (front ++ [t]).length := by simp
      rw [hmove, hlen, ih h]
    have hnext : start ≤ (front ++ [t]).length := by simp; omega
    have hdrop : (front ++ [t]).drop start = front.drop start ++ [t] := List.drop_append_of_le_length h
    rw [cutArguments, splitArguments]
    by_cases hm : t = "," ∧ depth = 0
    · have ho : t ≠ "(" := by rw [hm.1]; decide
      have hc : t ≠ ")" := by rw [hm.1]; decide
      -- The next argument begins right behind the comma.
      have hrest := hstep (front.length + 1) (by simp) depth
      rw [if_neg ho, if_neg hc, if_pos hm, if_pos hm, slice_append h, hrest, hm.2]
      simp [pure, Except.pure, bind, Except.bind]
    rw [if_neg hm, if_neg hm]
    by_cases ho : t = "("
    · rw [if_pos ho, if_pos ho, hstep start hnext, hdrop]
      simp
    by_cases hc : t = ")"
    · rw [if_neg ho, if_pos hc, if_neg ho, if_pos hc, hstep start hnext, hdrop]
      simp
    · rw [if_neg ho, if_neg hc, if_neg ho, if_neg hc, hstep start hnext, hdrop]
      simp

theorem arguments_eq (tokens : List Token) :
    arguments tokens = .ok (SlotCompiler.arguments tokens) := by
  have h : 0 ≤ ([] : List Token).length := Nat.le_refl 0
  exact cutArguments_eq h tokens 0

/-! ## Expressions -/

theorem length_of_group {tokens inner : List Token} {start next : Nat}
    (h : group tokens start = .ok (inner, next)) :
    start + inner.length + 2 = next ∧ next ≤ tokens.length := by
  rw [group_eq, groupAt?] at h
  cases hg : group? (tokens.drop start) with
  | none => rw [hg] at h; cases h
  | some parts =>
    obtain ⟨i, rest⟩ := parts
    rw [hg] at h
    cases h
    have hlen := length_of_group? hg
    rw [List.length_drop] at hlen
    omega

theorem length_of_arguments {tokens a b c d : List Token} (h : arguments tokens = .ok [a, b, c, d]) :
    a.length + b.length + c.length + d.length + 3 = tokens.length := by
  rw [arguments_eq] at h
  exact SlotCompiler.length_of_arguments (Except.ok.inj h)

mutual

def lowerExpr (ts : List Token) : EStateM (Trap Cause) Draft Operand :=
  match ts with
  | [] => throw (.error .expression)
  | [t] => checked (lowerSingle t)
  | t :: u :: more =>
    match _h : joinSigns none (t :: u :: more) with
    | none => throw (.error .expression)
    | some joined =>
      if hasEmptyGroup joined then throw (.error .expression)
      else do
        let terms ← lowerTerms joined 0
        checked (lowerPostfix terms)
termination_by 3 * ts.length + 1
decreasing_by
  have := length_joinSigns_le _h
  simp only [List.length_cons] at this ⊢
  omega

def lowerTerms (tokens : List Token) (pos : Nat) : EStateM (Trap Cause) Draft (List Term) :=
  if _hp : pos < tokens.length then
    match get tokens pos with
    | .error e => throw e
    | .ok t =>
      if t = "choose" then
        match _h : group tokens (pos + 1) with
        | .error e => throw e
        | .ok (inner, next) => do
          let v ← lowerChoose inner
          let terms ← lowerTerms tokens next
          return .value (.ready v) :: terms
      else
        match Term.ofToken t with
        | .error c => throw (.error c)
        | .ok term => do
          let terms ← lowerTerms tokens (pos + 1)
          return term :: terms
  else pure []
termination_by 3 * (tokens.length - pos)
decreasing_by
  all_goals try have := length_of_group _h
  all_goals omega

def lowerChoose (ts : List Token) : EStateM (Trap Cause) Draft Operand := do
  let dest ← freshTemp
  match _h : arguments ts with
  | .error e => throw e
  | .ok [selector, onZero, onPositive, onNegative] =>
    let s ← lowerExpr selector
    let z ← lowerExpr onZero
    let p ← lowerExpr onPositive
    let n ← lowerExpr onNegative
    checked (lowerSelect (.temp dest) s z p n)
  | .ok _ => throw (.error .arguments)
termination_by 3 * ts.length + 2
decreasing_by
  all_goals have := length_of_arguments _h
  all_goals omega

end

theorem group_append (front ts : List Token) : group (front ++ ts) front.length =
    orError .group ((group? ts).map fun (inner, _) => (inner, front.length + inner.length + 2)) := by
  rw [group_eq, groupAt?, List.drop_left]

theorem lowerExpr_cons_cons (t u : Token) (more : List Token) :
    lowerExpr (t :: u :: more) = (
      match joinSigns none (t :: u :: more) with
      | none => throw (.error .expression)
      | some joined =>
        if hasEmptyGroup joined then throw (.error .expression)
        else do
          let terms ← lowerTerms joined 0
          checked (lowerPostfix terms)) := by
  rw [lowerExpr]
  split <;> rename_i h <;> simp only [h]

theorem lowerTerms_nil (tokens : List Token) : lowerTerms tokens tokens.length = pure [] := by
  rw [lowerTerms, dif_neg (Nat.lt_irrefl _)]

theorem lowerTerms_cons (front : List Token) (t : Token) (ts : List Token) :
    lowerTerms (front ++ t :: ts) front.length = (
      if t = "choose" then
        match group? ts with
        | none => throw (.error .group)
        | some (inner, _) => do
          let v ← lowerChoose inner
          let terms ← lowerTerms (front ++ t :: ts) (front.length + 1 + inner.length + 2)
          return .value (.ready v) :: terms
      else
        match Term.ofToken t with
        | .error c => throw (.error c)
        | .ok term => do
          let terms ← lowerTerms (front ++ t :: ts) (front.length + 1)
          return term :: terms) := by
  have hgroup := group_append (front ++ [t]) ts
  rw [List.append_assoc, List.singleton_append, List.length_append, List.length_singleton] at hgroup
  rw [lowerTerms, dif_pos (by simp), get_append]
  simp only
  split
  · cases hg : group? ts with
    | none =>
      rw [hg] at hgroup
      split <;> rename_i h <;> rw [hgroup] at h <;> cases h
      rfl
    | some parts =>
      rw [hg] at hgroup
      split <;> rename_i h <;> rw [hgroup] at h <;> cases h
      rfl
  · rfl

theorem lowerChoose_eq (ts : List Token) :
    lowerChoose ts = (do
      let dest ← freshTemp
      match SlotCompiler.arguments ts with
      | [selector, onZero, onPositive, onNegative] =>
        let s ← lowerExpr selector
        let z ← lowerExpr onZero
        let p ← lowerExpr onPositive
        let n ← lowerExpr onNegative
        checked (lowerSelect (.temp dest) s z p n)
      | _ => throw (.error .arguments)) := by
  have hargs := arguments_eq ts
  rw [lowerChoose]
  refine bind_congr fun dest => ?_
  split
  · rename_i h
    rw [hargs] at h
    cases h
  · rename_i h
    rw [hargs] at h
    simp only [Except.ok.inj h]
  · rename_i hne h
    rw [hargs] at h
    cases h
    split
    · rename_i h'; exact absurd h' (hne _ _ _ _)
    · rfl

/-- Reading by position does what the lowering does, and so has no access out of range. -/
theorem lower_eq :
    (∀ ts, lowerExpr ts = checked (SlotCompiler.lowerExpr ts)) ∧
    (∀ ts front, lowerTerms (front ++ ts) front.length = checked (SlotCompiler.lowerTerms ts)) ∧
    (∀ ts, lowerChoose ts = checked (SlotCompiler.lowerChoose ts)) := by
  refine SlotCompiler.lowerExpr.mutual_induct _ _ _ ?_ ?_ ?_ ?_ ?_ ?_ ?_ ?_ ?_ ?_ ?_
  · rw [lowerExpr, lowerExpr_nil]; rfl
  · intro t
    rw [lowerExpr, lowerExpr_singleton]
  · intro t u ts hj
    rw [lowerExpr_cons_cons, SlotCompiler.lowerExpr_cons_cons, hj]
    rfl
  · intro t u ts joined hj he
    simp only [lowerExpr_cons_cons, SlotCompiler.lowerExpr_cons_cons, hj, he]
    rfl
  · intro t u ts joined hj he ih
    have hterms := ih []
    simp only [lowerExpr_cons_cons, SlotCompiler.lowerExpr_cons_cons, hj, he]
    exact (congrArg (· >>= _) hterms).trans (checked_bind _ _).symm
  · intro front
    rw [List.append_nil, lowerTerms_nil, SlotCompiler.lowerTerms_nil]
    rfl
  · intro ts hg front
    simp only [lowerTerms_cons, SlotCompiler.lowerTerms_cons, hg]
    rfl
  · intro ts inner rest hg ihc iht front
    -- The terms go on behind the group.
    have hrest := iht (front ++ "choose" :: "(" :: (inner ++ [")"]))
    have hmove : (front ++ "choose" :: "(" :: (inner ++ [")"])) ++ rest = front ++ "choose" :: ts := by
      simp [eq_of_group? hg]
    have hlen : (front ++ "choose" :: "(" :: (inner ++ [")"])).length =
        front.length + 1 + inner.length + 2 := by
      simp only [List.length_append, List.length_cons, List.length_nil]
      omega
    rw [hmove, hlen] at hrest
    simp only [lowerTerms_cons, SlotCompiler.lowerTerms_cons, if_true, hg, ihc, hrest, checked_bind]
    rfl
  · intro t ts hc c ht front
    simp only [lowerTerms_cons, SlotCompiler.lowerTerms_cons, hc, ht]
    rfl
  · intro t ts hc term ht ih front
    have hrest := ih (front ++ [t])
    rw [List.append_assoc, List.singleton_append, List.length_append, List.length_singleton] at hrest
    simp only [lowerTerms_cons, SlotCompiler.lowerTerms_cons, if_neg hc, ht, hrest, checked_bind]
    rfl
  · intro ts ih₁ ih₂ ih₃ ih₄
    rw [lowerChoose_eq, SlotCompiler.lowerChoose_eq, checked_bind]
    refine bind_congr fun dest => ?_
    rcases ha : SlotCompiler.arguments ts with _ | ⟨s, _ | ⟨z, _ | ⟨p, _ | ⟨n, _ | ⟨_, _⟩⟩⟩⟩⟩
    case cons.cons.cons.cons.nil =>
      simp only [ih₁ s z p n ha, ih₂ s z p n ha, ih₃ s z p n ha, ih₄ s z p n ha, checked_bind]
    all_goals rfl

theorem lowerExpr_eq (ts : List Token) : lowerExpr ts = checked (SlotCompiler.lowerExpr ts) :=
  lower_eq.1 ts

end Indexed

end SlotCompiler
