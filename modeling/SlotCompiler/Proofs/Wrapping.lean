import SlotCompiler.Proofs.Alternation
import SlotCompiler.Proofs.Spelling

/-!
# Expressions in parentheses

What an expression lowers to does not depend on what stands around it. A pair of parentheses around
an accepted expression leaves its code as it is, `lowerExpr_parenthesized`, and a call of `choose`
that is a whole expression has the code of the call alone, `lowerExpr_choose_iff`. In both cases the
signs of the inner tokens are joined in other company, and in the second one more than once.
-/

namespace SlotCompiler

/-! ## Joined signs -/

section
variable {prev prev' : Option Token} {t : Token} {ts us joined : List Token}

theorem joinSigns_congr (h : expectsOperand prev = expectsOperand prev') (ts : List Token) :
    joinSigns prev ts = joinSigns prev' ts := by
  match ts with
  | [] => rfl
  | [t] => simp only [joinSigns, h]
  | t :: u :: ts => simp only [joinSigns, h]

theorem getLast?_cons_or (t : Token) (ts : List Token) (prev : Option Token) :
    (t :: ts).getLast?.or prev = ts.getLast?.or (some t) := by
  rw [List.getLast?_cons]
  cases ts.getLast? <;> rfl

theorem joinSigns_append (h : joinSigns prev ts = some joined) (us : List Token) :
    joinSigns prev (ts ++ us) = (joinSigns (joined.getLast?.or prev) us).map (joined ++ ·) := by
  fun_induction joinSigns prev ts generalizing joined with
  | case1 => cases h; simp
  | case2 => cases h
  | case3 prev t hs =>
    cases h
    exact joinSigns_cons hs
  | case4 prev t u ts hs ih =>
    obtain ⟨js, hj, rfl⟩ := Option.map_eq_some_iff.mp h
    obtain ⟨rfl, hprev⟩ := hs
    rw [List.cons_append, List.cons_append, joinSigns_sign hprev, ih hj, getLast?_cons_or, Option.map_map]
    rfl
  | case5 prev t u ts hs ih =>
    obtain ⟨js, hj, rfl⟩ := Option.map_eq_some_iff.mp h
    rw [List.cons_append, joinSigns_cons hs, ih hj, getLast?_cons_or, Option.map_map]
    rfl

theorem sign_ne_minus {u : Token} (h : u ≠ "") : "-" ++ u ≠ "-" := by
  intro he
  have hl := congrArg String.toList he
  exact h (String.toList_inj.mp (by simpa using hl))

theorem joinSigns_joined (h : joinSigns prev ts = some joined) (hne : ∀ t ∈ ts, t ≠ "") :
    joinSigns prev joined = some joined := by
  fun_induction joinSigns prev ts generalizing joined with
  | case1 => cases h; rfl
  | case2 => cases h
  | case3 prev t hs =>
    cases h
    rw [joinSigns, if_neg hs]
  | case4 prev t u ts hs ih =>
    obtain ⟨js, hj, rfl⟩ := Option.map_eq_some_iff.mp h
    have hu : u ≠ "" := hne u (by simp)
    have hrest := ih hj fun w hw => hne w (by simp [hw])
    rw [joinSigns_cons fun h => sign_ne_minus hu h.1, hrest]
    rfl
  | case5 prev t u ts hs ih =>
    obtain ⟨js, hj, rfl⟩ := Option.map_eq_some_iff.mp h
    have hrest := ih hj fun w hw => hne w (.tail _ hw)
    rw [joinSigns_cons hs, hrest]
    rfl

/-- A token that no sign can be joined with divides the tokens around it. -/
theorem joinSigns_split (h : joinSigns prev (ts ++ t :: us) = some joined) (hl : ∀ w ∈ joined, w.Legal)
    (ht : t.toList.all Char.isDigit = false) (hm : t ≠ "-") : ∃ js ks, joinSigns prev ts = some js ∧
      joinSigns (some t) us = some ks ∧ joined = js ++ t :: ks := by
  have key {prev joined} (h : joinSigns prev (t :: us) = some joined) :
      ∃ ks, joinSigns (some t) us = some ks ∧ joined = t :: ks := by
    rw [joinSigns_cons fun h => hm h.1] at h
    obtain ⟨ks, hk, rfl⟩ := Option.map_eq_some_iff.mp h
    exact ⟨ks, hk, rfl⟩
  fun_induction joinSigns prev ts generalizing joined with
  | case1 prev =>
    obtain ⟨ks, hk, rfl⟩ := key h
    exact ⟨[], ks, rfl, hk, rfl⟩
  | case2 prev w hs =>
    -- The sign would be joined with the dividing token, which is no number.
    obtain ⟨rfl, hprev⟩ := hs
    rw [List.singleton_append, joinSigns_sign hprev] at h
    obtain ⟨js, hj, rfl⟩ := Option.map_eq_some_iff.mp h
    have := (hl _ (.head _)).signed t rfl
    rw [ht] at this
    cases this
  | case3 prev w hs =>
    rw [List.singleton_append, joinSigns_cons hs] at h
    obtain ⟨js, hj, rfl⟩ := Option.map_eq_some_iff.mp h
    obtain ⟨ks, hk, rfl⟩ := key hj
    exact ⟨[w], ks, rfl, hk, rfl⟩
  | case4 prev w u ts hs ih =>
    obtain ⟨rfl, hprev⟩ := hs
    rw [List.cons_append, List.cons_append, joinSigns_sign hprev] at h
    obtain ⟨js, hj, rfl⟩ := Option.map_eq_some_iff.mp h
    obtain ⟨is, ks, hi, hk, rfl⟩ := ih hj fun w hw => hl w (.tail _ hw)
    exact ⟨("-" ++ u) :: is, ks, by rw [hi]; rfl, hk, rfl⟩
  | case5 prev w u ts hs ih =>
    rw [List.cons_append, joinSigns_cons hs] at h
    obtain ⟨js, hj, rfl⟩ := Option.map_eq_some_iff.mp h
    obtain ⟨is, ks, hi, hk, rfl⟩ := ih hj fun w hw => hl w (.tail _ hw)
    exact ⟨w :: is, ks, by rw [hi]; rfl, hk, rfl⟩

end

/-! ## Terms between parentheses -/

section
variable {stack : List Pending} {terms : List Term} {cells : List Cell}

theorem release_paren (rank : Nat) (stack below : List Pending) : release rank (stack ++ .paren :: below) =
    ((release rank stack).1, (release rank stack).2 ++ .paren :: below) := by
  induction stack with
  | nil => rfl
  | cons p stack ih =>
    cases p with
    | paren => rfl
    | op a =>
      rw [List.cons_append, release, release]
      split
      · rw [ih]
      · rfl

/-- A parenthesis under the stack is reached by the closing one behind the terms, and by none before. -/
theorem toPostfix_paren (h : toPostfix stack terms = some cells) (below : List Pending) (rest : List Term) :
    toPostfix (stack ++ .paren :: below) (terms ++ .closing :: rest) =
      (toPostfix below rest).map (cells ++ ·) := by
  induction terms generalizing stack cells with
  | nil =>
    obtain ⟨ops, rfl, rfl⟩ := exists_of_drain h
    rw [List.nil_append, toPostfix, closeParen_append]
    rfl
  | cons t terms ih =>
    cases t with
    | value v =>
      obtain ⟨out, ho, rfl⟩ := Option.map_eq_some_iff.mp h
      rw [List.cons_append, toPostfix, ih ho, Option.map_map]
      rfl
    | op a =>
      obtain ⟨out, ho, rfl⟩ := Option.map_eq_some_iff.mp h
      rw [List.cons_append, toPostfix, release_paren]
      simp only [← List.cons_append, ih ho, Option.map_map]
      exact congrArg (Option.map · _) (funext fun _ => by simp)
    | opening =>
      have h : toPostfix (.paren :: stack) terms = some cells := h
      rw [List.cons_append, toPostfix, ← List.cons_append, ih h]
    | closing =>
      obtain ⟨⟨out, left⟩, hc, h⟩ := Option.bind_eq_some_iff.mp h
      obtain ⟨out', ho, rfl⟩ := Option.map_eq_some_iff.mp h
      obtain ⟨ops, rfl, rfl⟩ := exists_of_closeParen hc
      rw [List.cons_append, toPostfix, List.append_assoc, List.cons_append, closeParen_append]
      simp only [Option.bind_some, ih ho, Option.map_map]
      exact congrArg (Option.map · _) (funext fun _ => by simp)

theorem lowerPostfix_paren (h : toPostfix [] terms = some cells) :
    lowerPostfix (.opening :: (terms ++ [.closing])) = lowerPostfix terms := by
  have hparen : toPostfix [.paren] (terms ++ [.closing]) = some cells := by
    simpa [toPostfix, drain] using toPostfix_paren h [] []
  simp only [lowerPostfix, toPostfix, hparen, h]

end

section
variable {d d' : Draft} {ts inner rest : List Token} {terms : List Term}

theorem group?_append (h : group? ts = some (inner, rest)) (more : List Token) :
    group? (ts ++ more) = some (inner, rest ++ more) := by
  have hgroup := group?_of_nested (nested_of_group? h) (rest ++ more)
  rw [eq_of_group? h]
  simpa using hgroup

theorem lowerTerms_append (h : (lowerTerms ts).run d = .ok terms d') (more : List Token) :
    (lowerTerms (ts ++ more)).run d = (lowerTerms more >>= fun us => pure (terms ++ us)).run d' := by
  induction hn : ts.length using Nat.strong_induction_on generalizing ts terms d with
  | _ n ih =>
    match ts with
    | [] =>
      rw [lowerTerms_nil] at h
      cases h
      simp
    | t :: ts =>
      rw [List.length_cons] at hn
      rw [List.cons_append]
      simp only [lowerTerms_cons] at h ⊢
      by_cases hc : t = "choose"
      · simp only [if_pos hc] at h ⊢
        cases hg : group? ts with
        | none => rw [hg] at h; cases h
        | some parts =>
          obtain ⟨inner, rest⟩ := parts
          have hlen := length_of_group? hg
          simp only [hg, group?_append hg] at h ⊢
          obtain ⟨v, d₁, hv, h⟩ := run_bind_ok h
          obtain ⟨terms', d₂, ht, h⟩ := run_bind_ok h
          cases h
          have hrest := ih rest.length (by omega) ht rfl
          rw [run_bind_of_ok hv]
          simp only [EStateM.run_bind] at hrest ⊢
          rw [hrest]
          cases (lowerTerms more).run d' <;> rfl
      · simp only [if_neg hc] at h ⊢
        cases ho : Term.ofToken t with
        | error c => rw [ho] at h; cases h
        | ok term =>
          simp only [ho] at h ⊢
          obtain ⟨terms', d₁, ht, h⟩ := run_bind_ok h
          cases h
          have hrest := ih ts.length (by omega) ht rfl
          simp only [EStateM.run_bind] at hrest ⊢
          rw [hrest]
          cases (lowerTerms more).run d' <;> rfl

end

/-! ## Accepted expressions -/

theorem hasEmptyGroup_append {ts : List Token} (h : hasEmptyGroup ts = false) (us : List Token) :
    hasEmptyGroup (ts ++ us) = hasEmptyGroup us := by
  induction ts with
  | nil => rfl
  | cons t ts ih =>
    simp only [hasEmptyGroup, Bool.or_eq_false_iff] at h
    rw [List.cons_append, hasEmptyGroup, ih h.2]
    cases ts with
    | nil =>
      have ht : t ≠ "(" := by simpa using h.1
      simp [ht]
    | cons u ts =>
      rw [List.cons_append, List.head?_cons]
      rw [List.head?_cons] at h
      rw [h.1, Bool.false_or]

theorem Nested.head_ne {t : Token} {ts : List Token} (h : Nested (t :: ts)) : t ≠ ")" := by
  rintro rfl
  cases h

structure Clean (joined : List Token) : Prop where
  legal : ∀ t ∈ joined, t.Legal
  full : hasEmptyGroup joined = false

/-- The long way from the joined tokens of an expression to its code. -/
structure Passes (joined : List Token) (d : Draft) (v : Operand) (d' : Draft) : Prop
    extends Clean joined where
  nested : Nested joined
  ne_nil : joined ≠ []
  run : (lowerTerms joined >>= lowerPostfix).run d = .ok v d'

section
variable {ts joined : List Token} {t : Token} {d d' : Draft} {v : Operand}

theorem Passes.of_run (he : hasEmptyGroup joined = false)
    (h : (lowerTerms joined >>= lowerPostfix).run d = .ok v d') : Passes joined d v d' := by
  have hj : joined ≠ [] := by
    rintro rfl
    rw [lowerTerms_nil] at h
    cases h
  obtain ⟨terms, d₁, ht, hp⟩ := run_bind_ok h
  obtain ⟨hl, hn⟩ := legal_of_lower.2.1 joined ht
  refine ⟨⟨hl, he⟩, ?_, hj, h⟩
  unfold lowerPostfix at hp
  split at hp
  · cases hp
  · rename_i cells hc
    rw [Nested, ← hn]
    exact nestTerms_of_toPostfix hc

theorem lowerTerms_single (h : (lowerSingle t).run d = .ok v d') :
    (lowerTerms [t] >>= lowerPostfix).run d = .ok v d' := by
  unfold lowerSingle at h
  split at h
  · rename_i hnum
    split at h
    · rename_i n hn
      cases h
      rw [lowerTerms_term (ne_of_isNumeric hnum (by decide)) (ofToken_number hnum hn), lowerTerms_nil]
      rfl
    · cases h
  · have hname : t.isName := by
      obtain ⟨slot, d₁, hd, _⟩ := run_bind_ok h
      exact isName_of_declare hd
    rw [lowerTerms_term (ne_of_isName hname (by decide)) (ofToken_name hname), lowerTerms_nil]
    exact h

theorem passes_of_lowerExpr (h : (lowerExpr ts).run d = .ok v d') :
    ∃ joined, joinSigns none ts = some joined ∧ Passes joined d v d' := by
  match ts with
  | [] => rw [lowerExpr_nil] at h; cases h
  | [t] =>
    rw [lowerExpr_singleton] at h
    have ht : t ≠ "-" := by
      rintro rfl
      cases h
    have ho : t ≠ "(" := by
      rintro rfl
      cases h
    refine ⟨[t], ?_, .of_run (by simp [hasEmptyGroup, ho]) (lowerTerms_single h)⟩
    rw [joinSigns, if_neg fun h => ht h.1]
  | t :: u :: ts =>
    rw [lowerExpr_cons_cons] at h
    split at h
    · cases h
    · rename_i joined hj
      split at h
      · cases h
      · rename_i he
        exact ⟨joined, hj, .of_run (by simpa using he) h⟩

theorem Passes.lowerExpr_run (h : Passes joined d v d') (hj : joinSigns none ts = some joined)
    (hlen : 2 ≤ ts.length) : (lowerExpr ts).run d = .ok v d' := by
  match ts with
  | [] => simp at hlen
  | [t] => simp at hlen
  | t :: u :: ts =>
    simp only [lowerExpr_cons_cons, hj, h.full]
    exact h.run

end

/-! ## Redundant parentheses -/

def parenthesized (ts : List Token) : List Token := "(" :: (ts ++ [")"])

section
variable {ts joined : List Token} {d d' : Draft} {v : Operand}

theorem joinSigns_parenthesized (h : joinSigns none ts = some joined) :
    joinSigns none (parenthesized ts) = some (parenthesized joined) := by
  have hopen : joinSigns (some "(") ts = some joined := by
    rw [← h]
    exact joinSigns_congr (by decide) ts
  rw [parenthesized, joinSigns_cons (by simp), joinSigns_append hopen, joinSigns_cons (by simp)]
  rfl

theorem Nested.full_parenthesized (hn : Nested joined) (hne : joined ≠ []) (h : hasEmptyGroup joined = false) :
    hasEmptyGroup (parenthesized joined) = false := by
  obtain ⟨t, us, rfl⟩ := List.exists_cons_of_ne_nil hne
  rw [parenthesized, hasEmptyGroup_opening ⟨t, us, rfl, hn.head_ne⟩, hasEmptyGroup_append h]
  rfl

theorem Passes.paren (h : Passes joined d v d') : Passes (parenthesized joined) d v d' := by
  refine .of_run (h.nested.full_parenthesized h.ne_nil h.full) ?_
  obtain ⟨terms, d₁, ht, hp⟩ := run_bind_ok h.run
  have hclose : (lowerTerms (joined ++ [")"])).run d = .ok (terms ++ [.closing]) d₁ := by
    rw [lowerTerms_append ht, lowerTerms_term (by decide) rfl, lowerTerms_nil]
    rfl
  obtain ⟨cells, hcells⟩ : ∃ cells, toPostfix [] terms = some cells := by
    unfold lowerPostfix at hp
    split at hp
    · cases hp
    · exact ⟨_, ‹_›⟩
  rw [parenthesized, lowerTerms_term (by decide) rfl, bind_assoc, run_bind_of_ok hclose, pure_bind,
    lowerPostfix_paren hcells]
  exact hp

/-- Parentheses around an accepted expression, any number of them, change nothing: not its value, its
code, nor what it takes of temporaries, ids and variables. -/
theorem lowerExpr_parenthesized (h : (lowerExpr ts).run d = .ok v d') (n : Nat) :
    (lowerExpr (parenthesized^[n] ts)).run d = .ok v d' := by
  induction n with
  | zero => exact h
  | succ n ih =>
    obtain ⟨joined, hj, hp⟩ := passes_of_lowerExpr ih
    rw [Function.iterate_succ_apply']
    exact hp.paren.lowerExpr_run (joinSigns_parenthesized hj) (by simp [parenthesized])

theorem lowerExpr_parenthesized_sum :
    let d' : Draft := ⟨2, 0, 0, 0, ["x"], [.alloca (.var "x"), .store (.literal 0) (.var "x"),
      .load 1 (.var "x"), .arith 2 .add (.literal (-2)) (.temp 1)]⟩
    (lowerExpr ["-", "2", "+", "x"]).run {} = .ok (.temp 2) d' ∧
      (lowerExpr ["(", "(", "-", "2", "+", "x", ")", ")"]).run {} = .ok (.temp 2) d' := by
  intro d'
  have h : (lowerExpr ["-", "2", "+", "x"]).run {} = .ok (.temp 2) d' := by cbv
  exact ⟨h, lowerExpr_parenthesized h 2⟩

end

/-! ## Calls -/

section
variable {prev : Option Token} {ts joined : List Token} {v : Operand} {d d' : Draft}

theorem eq_nil_of_joinSigns (h : joinSigns prev ts = some []) : ts = [] := by
  unfold joinSigns at h
  split at h
  · rfl
  · split at h <;> cases h
  · split at h
    · obtain ⟨js, _, hj⟩ := Option.map_eq_some_iff.mp h
      cases hj
    · obtain ⟨js, _, hj⟩ := Option.map_eq_some_iff.mp h
      cases hj

theorem sign_ne_comma (u : Token) : "-" ++ u ≠ "," := by
  intro h
  have := congrArg String.toList h
  simp at this

theorem lowerExpr_sign {u : Token} (hu : u ≠ "") : lowerExpr ["-", u] = lowerSingle ("-" ++ u) := by
  have hjoin : joinSigns none ["-", u] = some ["-" ++ u] := joinSigns_sign rfl
  have hnum : Token.isNumeric ("-" ++ u) := by simp [Token.isNumeric]
  obtain ⟨ho, hc⟩ := sign_ne_paren u
  have hop : Arith.ofToken? ("-" ++ u) = none := by
    refine Option.eq_none_iff_forall_ne_some.mpr fun a ha => ?_
    rcases Arith.eq_of_ofToken? ha with h | h | h | h
    · exact ne_of_isNumeric hnum (by decide) h
    · exact sign_ne_minus hu h
    · exact ne_of_isNumeric hnum (by decide) h
    · exact ne_of_isNumeric hnum (by decide) h
  have hne : "-" ++ u ≠ "choose" := ne_of_isNumeric hnum (by decide)
  rw [lowerExpr_cons_cons, hjoin]
  simp only [hasEmptyGroup, lowerTerms_cons, hne, Term.ofToken, hop, ho, hc, hnum,
    lowerTerms_nil, lowerSingle]
  cases Token.number? ("-" ++ u) <;> rfl

theorem lowerExpr_joined (h : joinSigns none ts = some joined) (hne : ∀ t ∈ ts, t ≠ "") :
    lowerExpr joined = lowerExpr ts := by
  match ts with
  | [] => cases h; rfl
  | [t] =>
    rw [joinSigns] at h
    split at h
    · cases h
    · cases h; rfl
  | t :: u :: ts =>
    have hagain := joinSigns_joined h hne
    rcases joined with _ | ⟨j, _ | ⟨k, joined⟩⟩
    · cases eq_nil_of_joinSigns h
    · -- A sign with its digits has become one token, which takes the short way.
      rw [joinSigns] at h
      split at h
      · rename_i hs
        obtain ⟨js, hj, he⟩ := Option.map_eq_some_iff.mp h
        cases he
        obtain rfl := eq_nil_of_joinSigns hj
        rw [hs.1, lowerExpr_singleton, lowerExpr_sign (hne u (by simp))]
      · obtain ⟨js, hj, he⟩ := Option.map_eq_some_iff.mp h
        cases he
        cases eq_nil_of_joinSigns hj
    · rw [lowerExpr_cons_cons, lowerExpr_cons_cons, hagain, h]

theorem splitArguments_comma (ts : List Token) : splitArguments 0 ("," :: ts) =
    ([], (splitArguments 0 ts).1 :: (splitArguments 0 ts).2) := rfl

theorem splitArguments_cons {t : Token} {depth : Nat} (h : ¬(t = "," ∧ depth = 0)) :
    ∃ next, ∀ ts, splitArguments depth (t :: ts) =
      (t :: (splitArguments next ts).1, (splitArguments next ts).2) :=
  ⟨_, fun ts => by rw [splitArguments, if_neg h]⟩

theorem splitArguments_plain {t : Token} (ho : t ≠ "(") (hc : t ≠ ")") (hm : t ≠ ",") (depth : Nat) :
    splitArguments depth (t :: ts) = (t :: (splitArguments depth ts).1, (splitArguments depth ts).2) := by
  rw [splitArguments, if_neg fun h => hm h.1, if_neg ho, if_neg hc]

/-- Where commas part the tokens into arguments, they part the joined tokens into the arguments with
joined signs. -/
theorem splitArguments_joined (h : joinSigns prev ts = some joined) (hl : ∀ t ∈ joined, t.Legal)
    (depth : Nat) :
    joinSigns prev (splitArguments depth ts).1 = some (splitArguments depth joined).1 ∧
      List.Forall₂ (fun a j => joinSigns none a = some j) (splitArguments depth ts).2
        (splitArguments depth joined).2 := by
  fun_induction joinSigns prev ts generalizing joined depth with
  | case1 => cases h; exact ⟨rfl, .nil⟩
  | case2 => cases h
  | case3 prev t hs =>
    cases h
    rw [splitArguments]
    split
    · exact ⟨rfl, .cons rfl .nil⟩
    · exact ⟨by simp [splitArguments, joinSigns_cons hs, joinSigns], .nil⟩
  | case4 prev t u ts hs ih =>
    obtain ⟨js, hj, rfl⟩ := Option.map_eq_some_iff.mp h
    obtain ⟨rfl, hprev⟩ := hs
    -- A sign is joined with digits only, and these part nothing.
    have hu := (hl _ (.head _)).signed u rfl
    obtain ⟨ho, hc⟩ := ne_paren_of_digits hu
    have hm : u ≠ "," := by rintro rfl; exact absurd hu (by decide)
    obtain ⟨ho', hc'⟩ := sign_ne_paren u
    obtain ⟨hfirst, hothers⟩ := ih hj (fun w hw => hl w (.tail _ hw)) depth
    rw [splitArguments_plain (by decide) (by decide) (by decide), splitArguments_plain ho hc hm,
      splitArguments_plain ho' hc' (sign_ne_comma u)]
    exact ⟨by rw [joinSigns_sign hprev, hfirst]; rfl, hothers⟩
  | case5 prev t u ts hs ih =>
    obtain ⟨js, hj, rfl⟩ := Option.map_eq_some_iff.mp h
    have hrest := ih hj fun w hw => hl w (.tail _ hw)
    by_cases hcomma : t = "," ∧ depth = 0
    · obtain ⟨rfl, rfl⟩ := hcomma
      obtain ⟨hfirst, hothers⟩ := hrest 0
      rw [joinSigns_congr (by decide : expectsOperand (some ",") = expectsOperand none)] at hfirst
      rw [splitArguments_comma, splitArguments_comma]
      exact ⟨rfl, .cons hfirst hothers⟩
    · obtain ⟨next, hsplit⟩ := splitArguments_cons hcomma
      obtain ⟨hfirst, hothers⟩ := hrest next
      rw [hsplit, hsplit]
      exact ⟨by rw [joinSigns_cons hs, hfirst]; rfl, hothers⟩

theorem subset_intercalate {arg : List Token} {args : List (List Token)} (h : arg ∈ args) :
    arg ⊆ [","].intercalate args := by
  induction args with
  | nil => cases h
  | cons a args ih =>
    cases args with
    | nil =>
      obtain rfl := List.mem_singleton.mp h
      exact fun t ht => by simpa using ht
    | cons b args =>
      rw [List.intercalate_cons_cons]
      rcases List.mem_cons.mp h with rfl | h
      · exact fun t ht => by simp [ht]
      · exact fun t ht => List.mem_append_right _ (ih h ht)

theorem arguments_joined (h : joinSigns (some "(") ts = some joined) (hl : ∀ t ∈ joined, t.Legal)
    (hne : ∀ t ∈ ts, t ≠ "") :
    List.Forall₂ (fun a j => lowerExpr j = lowerExpr a) (arguments ts) (arguments joined) := by
  have hargs : List.Forall₂ (fun a j => joinSigns none a = some j) (arguments ts) (arguments joined) := by
    obtain ⟨hfirst, hothers⟩ := splitArguments_joined h hl 0
    rw [joinSigns_congr (by decide : expectsOperand (some "(") = expectsOperand none)] at hfirst
    exact .cons hfirst hothers
  have hwords : ∀ a ∈ arguments ts, ∀ t ∈ a, t ≠ "" := by
    intro a ha t ht
    have hsub := subset_intercalate ha
    rw [intercalate_arguments] at hsub
    exact hne t (hsub ht)
  have hboth := (List.forall₂_and_left _ _).mpr ⟨hwords, hargs⟩
  exact hboth.imp fun a j h => lowerExpr_joined h.2 h.1

theorem lowerChoose_joined (h : joinSigns (some "(") ts = some joined) (hl : ∀ t ∈ joined, t.Legal)
    (hne : ∀ t ∈ ts, t ≠ "") : lowerChoose joined = lowerChoose ts := by
  have hargs := arguments_joined h hl hne
  rw [lowerChoose_eq, lowerChoose_eq]
  refine bind_congr fun dest => ?_
  generalize arguments ts = args at hargs ⊢
  generalize arguments joined = args' at hargs ⊢
  rcases hargs with _ | ⟨hs, _ | ⟨hz, _ | ⟨hp, _ | ⟨hn, _ | _⟩⟩⟩⟩
  case cons.cons.cons.cons.nil => simp only [hs, hz, hp, hn]
  all_goals rfl

theorem lowerTerms_choose (h : Nested joined) :
    lowerTerms ("choose" :: parenthesized joined) >>= lowerPostfix = lowerChoose joined := by
  have hgroup : group? (parenthesized joined) = some (joined, []) := group?_of_nested h []
  simp only [lowerTerms_cons, if_true, hgroup, lowerTerms_nil, pure_bind, bind_assoc]
  exact bind_pure (lowerChoose joined)

theorem joinSigns_choose (h : joinSigns (some "(") ts = some joined) :
    joinSigns none ("choose" :: parenthesized ts) = some ("choose" :: parenthesized joined) := by
  rw [parenthesized, joinSigns_cons (by simp), joinSigns_cons (by simp), joinSigns_append h,
    joinSigns_cons (by simp)]
  rfl

theorem exists_joined_of_choose {whole : List Token}
    (h : joinSigns none ("choose" :: parenthesized ts) = some whole) (hl : ∀ t ∈ whole, t.Legal) :
    ∃ joined, joinSigns (some "(") ts = some joined ∧ whole = "choose" :: parenthesized joined := by
  rw [parenthesized, joinSigns_cons (by simp), joinSigns_cons (by simp), Option.map_map] at h
  obtain ⟨js, hj, rfl⟩ := Option.map_eq_some_iff.mp h
  obtain ⟨joined, ks, hjoin, hk, rfl⟩ :=
    joinSigns_split hj (fun t ht => hl t (.tail _ (.tail _ ht))) (by decide) (by decide)
  cases hk
  exact ⟨joined, hjoin, rfl⟩

theorem joinSigns_comma {us js ks : List Token} (hj : joinSigns none ts = some js)
    (hk : joinSigns none us = some ks) : joinSigns none (ts ++ "," :: us) = some (js ++ "," :: ks) := by
  have hrest : joinSigns (some ",") us = some ks := by
    rw [← hk]
    exact joinSigns_congr (by decide) us
  rw [joinSigns_append hj, joinSigns_cons (by simp), hrest]
  rfl

theorem Clean.comma {js ks : List Token} (hj : Clean js) (hk : Clean ks) : Clean (js ++ "," :: ks) where
  legal := by
    have hcomma : Token.Legal "," := legal_of_head (by decide) (by decide)
    exact List.forall_mem_append.mpr ⟨hj.legal, List.forall_mem_cons.mpr ⟨hcomma, hk.legal⟩⟩
  full := by rw [hasEmptyGroup_append hj.full, hasEmptyGroup_cons (by decide), hk.full]

theorem clean_of_lowerChoose (h : (lowerChoose ts).run d = .ok v d') :
    ∃ joined, joinSigns (some "(") ts = some joined ∧ joined ≠ [] ∧ Clean joined := by
  rw [lowerChoose_eq] at h
  obtain ⟨dest, d₁, _, h⟩ := run_bind_ok h
  split at h
  · rename_i s z p n ha
    obtain ⟨_, _, hs, h⟩ := run_bind_ok h
    obtain ⟨_, _, hz, h⟩ := run_bind_ok h
    obtain ⟨_, _, hp, h⟩ := run_bind_ok h
    obtain ⟨_, _, hn, _⟩ := run_bind_ok h
    obtain ⟨js, hjs, hs⟩ := passes_of_lowerExpr hs
    obtain ⟨jz, hjz, hz⟩ := passes_of_lowerExpr hz
    obtain ⟨jp, hjp, hp⟩ := passes_of_lowerExpr hp
    obtain ⟨jn, hjn, hn⟩ := passes_of_lowerExpr hn
    have hts := intercalate_arguments ts
    rw [ha, intercalate_four] at hts
    refine ⟨js ++ "," :: (jz ++ "," :: (jp ++ "," :: jn)), ?_, by simp, ?_⟩
    · rw [← hts, joinSigns_congr (by decide : expectsOperand (some "(") = expectsOperand none)]
      exact joinSigns_comma hjs (joinSigns_comma hjz (joinSigns_comma hjp hjn))
    · exact hs.toClean.comma (hz.toClean.comma (hp.toClean.comma hn.toClean))
  · cases h

/-- A call of `choose` that makes up an expression is accepted just if the call alone is, with the
same value and the same draft. -/
theorem lowerExpr_choose_iff (hne : ∀ t ∈ ts, t ≠ "") (hn : Nested ts) (v : Operand) (d d' : Draft) :
    (lowerExpr ("choose" :: parenthesized ts)).run d = .ok v d' ↔ (lowerChoose ts).run d = .ok v d' := by
  constructor
  · intro h
    obtain ⟨whole, hj, hp⟩ := passes_of_lowerExpr h
    obtain ⟨joined, hjoin, rfl⟩ := exists_joined_of_choose hj hp.legal
    have hl : ∀ t ∈ joined, t.Legal := fun t ht => hp.legal t (by simp [parenthesized, ht])
    have hnested : Nested joined := ((legal_of_joinSigns hjoin hl).2 0).symm.trans hn
    have hrun := hp.run
    rwa [lowerTerms_choose hnested, lowerChoose_joined hjoin hl hne] at hrun
  · intro h
    obtain ⟨joined, hjoin, hne', hclean⟩ := clean_of_lowerChoose h
    have hnested : Nested joined := ((legal_of_joinSigns hjoin hclean.legal).2 0).symm.trans hn
    have hfull : hasEmptyGroup ("choose" :: parenthesized joined) = false := by
      rw [hasEmptyGroup_cons (by decide), hnested.full_parenthesized hne' hclean.full]
    rw [← lowerChoose_joined hjoin hclean.legal hne, ← lowerTerms_choose hnested] at h
    exact (Passes.of_run hfull h).lowerExpr_run (joinSigns_choose hjoin) (by simp [parenthesized])

theorem lowerExpr_choose_signs : ∃ d', (lowerChoose (lex "-1, x, (2 - -3), -4")).run {} = .ok (.temp 6) d' ∧
    (lowerExpr (lex "choose(-1, x, (2 - -3), -4)")).run {} = .ok (.temp 6) d' := by
  obtain ⟨d', h⟩ : ∃ d', (lowerChoose (lex "-1, x, (2 - -3), -4")).run {} = .ok (.temp 6) d' :=
    ⟨_, by cbv⟩
  have hwhole : lex "choose(-1, x, (2 - -3), -4)" = "choose" :: parenthesized (lex "-1, x, (2 - -3), -4") := by
    decide +kernel
  have hnested : Nested (lex "-1, x, (2 - -3), -4") := by
    unfold Nested
    decide +kernel
  refine ⟨d', h, ?_⟩
  rw [hwhole]
  exact (lowerExpr_choose_iff (by decide +kernel) hnested _ _ _).mpr h

end

end SlotCompiler
