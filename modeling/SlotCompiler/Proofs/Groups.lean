import SlotCompiler.Proofs.Growth

/-!
# Nested parentheses

`nest` follows the depth of parentheses through a token list. The group that `closeGroup` cuts is
the one whose inside nests, and what is inside the parentheses of an accepted expression nests as
well: `legal_of_lowerExpr`.
-/

namespace SlotCompiler

/-- The depth behind the tokens, from the one before them. There is none if a `)` has no `(`. -/
def nest (depth : Nat) : List Token → Option Nat
  | [] => some depth
  | t :: ts =>
    if t = "(" then nest (depth + 1) ts
    else if t = ")" then
      match depth with
      | 0 => none
      | d + 1 => nest d ts
    else nest depth ts

/-- Every parenthesis has its partner. -/
def Nested (ts : List Token) : Prop := nest 0 ts = some 0

section
variable {depth depth' k : Nat} {ts us : List Token} {t : Token}

@[simp] theorem nest_nil : nest depth [] = some depth := rfl

@[simp] theorem nest_opening : nest depth ("(" :: ts) = nest (depth + 1) ts := rfl

@[simp] theorem nest_closing : nest (depth + 1) (")" :: ts) = nest depth ts := rfl

theorem nest_cons (ho : t ≠ "(") (hc : t ≠ ")") : nest depth (t :: ts) = nest depth ts := by
  rw [nest.eq_def]
  simp only [if_neg ho, if_neg hc]

theorem nest_congr (h : ∀ k, nest k ts = nest k us) : nest depth (t :: ts) = nest depth (t :: us) := by
  by_cases ho : t = "("
  · subst ho; exact h _
  · by_cases hc : t = ")"
    · subst hc
      cases depth with
      | zero => rfl
      | succ d => exact h d
    · rw [nest_cons ho hc, nest_cons ho hc, h]

theorem nest_append : nest depth (ts ++ us) = (nest depth ts).bind (nest · us) := by
  induction ts generalizing depth with
  | nil => rfl
  | cons t ts ih =>
    by_cases ho : t = "("
    · subst ho; exact ih
    · by_cases hc : t = ")"
      · subst hc
        cases depth with
        | zero => rfl
        | succ d => exact ih
      · rw [List.cons_append, nest_cons ho hc, nest_cons ho hc, ih]

theorem nest_add (h : nest depth ts = some depth') (k : Nat) :
    nest (depth + k) ts = some (depth' + k) := by
  induction ts generalizing depth with
  | nil => cases h; rfl
  | cons t ts ih =>
    by_cases ho : t = "("
    · subst ho
      rw [nest_opening, Nat.add_right_comm]
      exact ih h
    · by_cases hc : t = ")"
      · subst hc
        cases depth with
        | zero => cases h
        | succ d =>
          rw [Nat.add_right_comm, nest_closing]
          exact ih h
      · rw [nest_cons ho hc] at h ⊢
        exact ih h

theorem Nested.nest_eq (h : Nested ts) (k : Nat) : nest k ts = some k := by
  simpa using nest_add h k

theorem Nested.append (h : Nested ts) (h' : Nested us) : Nested (ts ++ us) := by
  rw [Nested, nest_append, h]
  exact h'

theorem Nested.paren (h : Nested ts) : Nested ("(" :: (ts ++ [")"])) := by
  rw [Nested, nest_opening, nest_append, h.nest_eq]
  rfl

theorem nested_singleton (ho : t ≠ "(") (hc : t ≠ ")") : Nested [t] := nest_cons ho hc

theorem Nested.count_eq (h : Nested ts) : ts.count "(" = ts.count ")" := by
  have key : ∀ d, nest d ts = some 0 → d + ts.count "(" = ts.count ")" := by
    clear h
    induction ts with
    | nil => intro d h; simpa using h
    | cons t ts ih =>
      intro d h
      by_cases ho : t = "("
      · subst ho
        have := ih _ h
        simp; omega
      · by_cases hc : t = ")"
        · subst hc
          cases d with
          | zero => cases h
          | succ d =>
            have := ih _ h
            simp; omega
        · rw [nest_cons ho hc] at h
          simpa [ho, hc] using ih _ h
  simpa using key 0 h

end

/-! ## Groups -/

section
variable {depth : Nat} {ts inner rest : List Token}

theorem closeGroup_of_nest (h : nest depth ts = some 0) (rest : List Token) :
    closeGroup depth (ts ++ ")" :: rest) = some (ts, rest) := by
  induction ts generalizing depth with
  | nil => cases h; rfl
  | cons t ts ih =>
    rw [List.cons_append]
    unfold closeGroup
    by_cases hc : t = ")"
    · subst hc
      cases depth with
      | zero => cases h
      | succ d =>
        rw [nest_closing] at h
        simp [ih h]
    · rw [if_neg hc]
      by_cases ho : t = "("
      · subst ho
        rw [nest_opening] at h
        simp [ih h]
      · rw [nest_cons ho hc] at h
        simp [ho, ih h]

theorem nest_of_closeGroup (h : closeGroup depth ts = some (inner, rest)) :
    nest depth inner = some 0 := by
  induction ts generalizing depth inner with
  | nil => cases h
  | cons t ts ih =>
    unfold closeGroup at h
    by_cases hc : t = ")"
    · subst hc
      cases depth with
      | zero => cases h; rfl
      | succ d =>
        obtain ⟨⟨i, r⟩, hi, he⟩ := Option.map_eq_some_iff.mp h
        cases he
        rw [nest_closing]
        exact ih hi
    · rw [if_neg hc] at h
      obtain ⟨⟨i, r⟩, hi, he⟩ := Option.map_eq_some_iff.mp h
      cases he
      by_cases ho : t = "("
      · subst ho
        rw [nest_opening]
        exact ih hi
      · rw [if_neg ho] at hi
        rw [nest_cons ho hc]
        exact ih hi

theorem group?_of_nested (h : Nested ts) (rest : List Token) :
    group? ("(" :: (ts ++ ")" :: rest)) = some (ts, rest) :=
  closeGroup_of_nest h rest

theorem nested_of_group? (h : group? ts = some (inner, rest)) : Nested inner := by
  cases ts with
  | nil => cases h
  | cons t ts =>
    by_cases ht : t = "("
    · rw [group?, if_pos ht] at h
      exact nest_of_closeGroup h
    · rw [group?, if_neg ht] at h
      cases h

end

/-! ## Arguments -/

/-- Every comma is inside of parentheses, `depth` of them being open before the tokens. -/
def Guarded (depth : Nat) : List Token → Prop
  | [] => True
  | t :: ts => (t = "," → depth ≠ 0) ∧
    Guarded (if t = "(" then depth + 1 else if t = ")" then depth - 1 else depth) ts

section
variable {depth depth' : Nat} {ts us : List Token}

theorem guarded_append (h : nest depth ts = some depth') :
    Guarded depth (ts ++ us) ↔ Guarded depth ts ∧ Guarded depth' us := by
  induction ts generalizing depth with
  | nil => cases h; simp [Guarded]
  | cons t ts ih =>
    rw [List.cons_append, Guarded, Guarded, and_assoc]
    by_cases ho : t = "("
    · subst ho
      rw [if_pos rfl, ih h]
    · by_cases hc : t = ")"
      · subst hc
        cases depth with
        | zero => cases h
        | succ d => rw [if_neg ho, if_pos rfl, Nat.add_sub_cancel, ih h]
      · rw [nest_cons ho hc] at h
        rw [if_neg ho, if_neg hc, ih h]

theorem guarded_succ (h : nest depth ts = some depth') : Guarded (depth + 1) ts := by
  induction ts generalizing depth with
  | nil => trivial
  | cons t ts ih =>
    refine ⟨fun _ => Nat.succ_ne_zero _, ?_⟩
    by_cases ho : t = "("
    · subst ho
      exact ih h
    · by_cases hc : t = ")"
      · subst hc
        cases depth with
        | zero => cases h
        | succ d => exact ih h
      · rw [nest_cons ho hc] at h
        rw [if_neg ho, if_neg hc]
        exact ih h

theorem splitArguments_append (h : nest depth ts = some depth') (hg : Guarded depth ts) :
    splitArguments depth (ts ++ us) =
      (ts ++ (splitArguments depth' us).1, (splitArguments depth' us).2) := by
  induction ts generalizing depth with
  | nil => cases h; rfl
  | cons t ts ih =>
    obtain ⟨hcomma, hg⟩ := hg
    have hn : ¬(t = "," ∧ depth = 0) := fun hn => hcomma hn.1 hn.2
    rw [List.cons_append, splitArguments, if_neg hn]
    by_cases ho : t = "("
    · subst ho
      rw [if_pos rfl] at hg ⊢
      rw [ih h hg]
      rfl
    · by_cases hc : t = ")"
      · subst hc
        cases depth with
        | zero => cases h
        | succ d =>
          rw [if_neg ho, if_pos rfl] at hg ⊢
          rw [Nat.add_sub_cancel] at hg ⊢
          rw [ih h hg]
          rfl
      · rw [nest_cons ho hc] at h
        rw [if_neg ho, if_neg hc] at hg ⊢
        rw [ih h hg]
        rfl

end

/-- A possible argument of a call. -/
structure Whole (ts : List Token) : Prop where
  nested : Nested ts
  guarded : Guarded 0 ts

theorem Whole.append {ts us : List Token} (h : Whole ts) (h' : Whole us) : Whole (ts ++ us) :=
  ⟨h.nested.append h'.nested, (guarded_append h.nested).mpr ⟨h.guarded, h'.guarded⟩⟩

theorem whole_singleton {t : Token} (ho : t ≠ "(") (hc : t ≠ ")") (hn : t ≠ ",") : Whole [t] :=
  ⟨nested_singleton ho hc, fun h => absurd h hn, trivial⟩

theorem Nested.whole {ts : List Token} (h : Nested ts) : Whole ("(" :: (ts ++ [")"])) := by
  refine ⟨h.paren, nofun, (guarded_append (h.nest_eq 1)).mpr ⟨guarded_succ h, nofun, trivial⟩⟩

theorem arguments_intercalate {args : List (List Token)} (hne : args ≠ []) (h : ∀ arg ∈ args, Whole arg) :
    arguments ([","].intercalate args) = args := by
  induction args with
  | nil => exact absurd rfl hne
  | cons arg args ih =>
    obtain ⟨ha, hs⟩ := List.forall_mem_cons.mp h
    cases args with
    | nil =>
      have hlast : splitArguments 0 (arg ++ []) = (arg ++ [], []) :=
        splitArguments_append ha.nested ha.guarded
      rw [List.append_nil] at hlast
      simp [arguments, hlast]
    | cons arg' args =>
      have hrest := ih (by simp) hs
      rw [List.intercalate_cons_cons, List.append_assoc, arguments,
        splitArguments_append ha.nested ha.guarded]
      rw [arguments] at hrest
      simp [splitArguments, hrest]

/-! ## Accepted expressions -/

def nestTerms (depth : Nat) : List Term → Option Nat
  | [] => some depth
  | .opening :: ts => nestTerms (depth + 1) ts
  | .closing :: ts =>
    match depth with
    | 0 => none
    | d + 1 => nestTerms d ts
  | .value _ :: ts => nestTerms depth ts
  | .op _ :: ts => nestTerms depth ts

theorem release_parens (rank : Nat) (stack : List Pending) :
    (release rank stack).2.count .paren = stack.count .paren := by
  induction stack with
  | nil => rfl
  | cons p stack ih =>
    cases p with
    | paren => rfl
    | op a =>
      unfold release
      split
      · simpa using ih
      · rfl

theorem closeParen_parens {stack left : List Pending} {out : List Cell}
    (h : closeParen stack = some (out, left)) : stack.count .paren = left.count .paren + 1 := by
  induction stack generalizing out with
  | nil => cases h
  | cons p stack ih =>
    cases p with
    | paren => cases h; simp
    | op a =>
      obtain ⟨⟨o, l⟩, ho, he⟩ := Option.map_eq_some_iff.mp h
      cases he
      simpa using ih ho

theorem drain_parens {stack : List Pending} {out : List Cell} (h : drain stack = some out) :
    stack.count .paren = 0 := by
  induction stack generalizing out with
  | nil => rfl
  | cons p stack ih =>
    cases p with
    | paren => cases h
    | op a =>
      obtain ⟨o, ho, rfl⟩ := Option.map_eq_some_iff.mp h
      simpa using ih ho

theorem nestTerms_of_toPostfix {stack : List Pending} {terms : List Term} {cells : List Cell}
    (h : toPostfix stack terms = some cells) : nestTerms (stack.count .paren) terms = some 0 := by
  induction terms generalizing stack cells with
  | nil => rw [nestTerms, drain_parens h]
  | cons t terms ih =>
    cases t with
    | value v =>
      obtain ⟨out, ho, rfl⟩ := Option.map_eq_some_iff.mp h
      exact ih ho
    | op a =>
      obtain ⟨out, ho, rfl⟩ := Option.map_eq_some_iff.mp h
      have := ih ho
      rwa [List.count_cons_of_ne (by simp), release_parens] at this
    | opening =>
      have := ih h
      rwa [List.count_cons_self] at this
    | closing =>
      obtain ⟨⟨out, left⟩, hc, h⟩ := Option.bind_eq_some_iff.mp h
      obtain ⟨out', ho, rfl⟩ := Option.map_eq_some_iff.mp h
      rw [closeParen_parens hc]
      exact ih ho

/-- The tokens that make up blocks; no expression has one. -/
def structural : List Token := [openBrace, closeBrace, "if", "while"]

/-- What an accepted expression may consist of; a sign may only be joined with digits. -/
structure Token.Legal (t : Token) : Prop where
  plain : t ∉ structural
  signed : ∀ u, t = "-" ++ u → u.toList.all Char.isDigit

theorem Token.toList_of_number? {u : Token} {n : Int32} (h : number? ("-" ++ u) = some n) :
    u.toList.all Char.isDigit := by
  have ht : ("-" ++ u).toList = '-' :: u.toList := by simp
  simp only [number?, ht, digits?] at h
  split at h
  · rename_i hd; exact hd.2
  · cases h

theorem legal_of_head {t : Token} (h : t ∉ structural) (hs : t.toList.head? ≠ some '-') : t.Legal := by
  refine ⟨h, ?_⟩
  rintro u rfl
  simp at hs

theorem legal_of_digits {u : Token} (h : u.toList.all Char.isDigit) : u.Legal := by
  refine legal_of_head (fun hm => ?_) fun hs => ?_
  · simp only [structural, List.mem_cons, List.not_mem_nil, or_false] at hm
    rcases hm with rfl | rfl | rfl | rfl <;> exact absurd h (by decide)
  · have := List.all_eq_true.mp h _ (List.mem_of_head? hs)
    simp at this

theorem legal_of_isNumeric {t : Token} (h : t.isNumeric) {n : Int32} (hn : t.number? = some n) :
    t.Legal := by
  refine ⟨fun hm => ?_, ?_⟩
  · simp only [structural, List.mem_cons, List.not_mem_nil, or_false] at hm
    rcases hm with rfl | rfl | rfl | rfl <;> exact absurd h (by decide)
  · rintro u rfl
    exact Token.toList_of_number? hn

theorem legal_of_isName {t : Token} (h : t.isName) : t.Legal := by
  refine legal_of_head (fun hm => ?_) fun hs => ?_
  · simp only [structural, List.mem_cons, List.not_mem_nil, or_false] at hm
    rcases hm with rfl | rfl | rfl | rfl <;> exact absurd h (by decide)
  · unfold Token.isName at h
    split at h
    · cases h
    · rename_i c cs ht
      rw [ht] at hs
      cases hs
      simp [isNameStart] at h

theorem Arith.eq_of_ofToken? {t : Token} {a : Arith} (h : ofToken? t = some a) :
    t = "+" ∨ t = "-" ∨ t = "*" ∨ t = "/" := by
  unfold ofToken? at h
  repeat' split at h
  all_goals cases h
  all_goals simp_all

theorem legal_minus : Token.Legal "-" := by
  refine ⟨by decide, fun u hu => ?_⟩
  have := congrArg String.toList hu
  simp at this
  simp [this]

theorem legal_of_ofToken? {t : Token} {a : Arith} (h : Arith.ofToken? t = some a) :
    t.Legal ∧ t ≠ "(" ∧ t ≠ ")" := by
  rcases Arith.eq_of_ofToken? h with rfl | rfl | rfl | rfl
  · exact ⟨legal_of_head (by decide) (by decide), by decide, by decide⟩
  · exact ⟨legal_minus, by decide, by decide⟩
  · exact ⟨legal_of_head (by decide) (by decide), by decide, by decide⟩
  · exact ⟨legal_of_head (by decide) (by decide), by decide, by decide⟩

theorem ne_of_isNumeric {t u : Token} (h : t.isNumeric) (hu : u.isNumeric = false) : t ≠ u := by
  intro heq
  rw [heq, hu] at h
  cases h

theorem ne_of_isName {t u : Token} (h : t.isName) (hu : u.isName = false) : t ≠ u := by
  intro heq
  rw [heq, hu] at h
  cases h

theorem ne_paren_of_isNumeric {t : Token} (h : t.isNumeric) : t ≠ "(" ∧ t ≠ ")" :=
  ⟨ne_of_isNumeric h (by decide), ne_of_isNumeric h (by decide)⟩

theorem ne_paren_of_isName {t : Token} (h : t.isName) : t ≠ "(" ∧ t ≠ ")" :=
  ⟨ne_of_isName h (by decide), ne_of_isName h (by decide)⟩

theorem legal_of_ofToken {t : Token} {term : Term} {ts : List Token} {terms : List Term}
    (h : Term.ofToken t = .ok term) (hn : ∀ k, nestTerms k terms = nest k ts) :
    t.Legal ∧ ∀ k, nestTerms k (term :: terms) = nest k (t :: ts) := by
  unfold Term.ofToken at h
  split at h
  · rename_i a ha
    cases h
    obtain ⟨hl, ho, hc⟩ := legal_of_ofToken? ha
    exact ⟨hl, fun k => (hn k).trans (nest_cons ho hc).symm⟩
  · split at h
    · rename_i ht
      cases h; subst ht
      exact ⟨legal_of_head (by decide) (by decide), fun k => hn (k + 1)⟩
    split at h
    · rename_i ht
      cases h; subst ht
      refine ⟨legal_of_head (by decide) (by decide), fun k => ?_⟩
      cases k with
      | zero => rfl
      | succ k => exact hn k
    split at h
    · rename_i hnum
      split at h
      · rename_i n hv
        cases h
        obtain ⟨ho, hc⟩ := ne_paren_of_isNumeric hnum
        exact ⟨legal_of_isNumeric hnum hv, fun k => (hn k).trans (nest_cons ho hc).symm⟩
      · cases h
    split at h
    · rename_i hname
      cases h
      obtain ⟨ho, hc⟩ := ne_paren_of_isName hname
      exact ⟨legal_of_isName hname, fun k => (hn k).trans (nest_cons ho hc).symm⟩
    · cases h

theorem isName_of_declare {x : Token} {slot : Slot} {d d' : Draft} (h : (declare x).run d = .ok slot d') :
    x.isName := by
  unfold declare at h
  split at h
  · assumption
  · cases h

theorem legal_of_lowerSingle {t : Token} {d d' : Draft} {v : Operand}
    (h : (lowerSingle t).run d = .ok v d') : t.Legal ∧ Nested [t] := by
  unfold lowerSingle at h
  split at h
  · rename_i hnum
    split at h
    · rename_i n hv
      obtain ⟨ho, hc⟩ := ne_paren_of_isNumeric hnum
      exact ⟨legal_of_isNumeric hnum hv, nested_singleton ho hc⟩
    · cases h
  · obtain ⟨slot, d₁, hd, _⟩ := run_bind_ok h
    have hname := isName_of_declare hd
    obtain ⟨ho, hc⟩ := ne_paren_of_isName hname
    exact ⟨legal_of_isName hname, nested_singleton ho hc⟩

theorem ne_paren_of_digits {u : Token} (h : u.toList.all Char.isDigit) : u ≠ "(" ∧ u ≠ ")" := by
  constructor <;> rintro rfl <;> exact absurd h (by decide)

theorem sign_ne_paren (u : Token) : "-" ++ u ≠ "(" ∧ "-" ++ u ≠ ")" := by
  constructor <;> intro h <;> have := congrArg String.toList h <;> simp at this

theorem legal_of_joinSigns {prev : Option Token} {ts joined : List Token}
    (h : joinSigns prev ts = some joined) (hl : ∀ t ∈ joined, t.Legal) :
    (∀ t ∈ ts, t.Legal) ∧ ∀ k, nest k ts = nest k joined := by
  fun_induction joinSigns prev ts generalizing joined with
  | case1 => cases h; exact ⟨hl, fun _ => rfl⟩
  | case2 => cases h
  | case3 => cases h; exact ⟨hl, fun _ => rfl⟩
  | case4 prev t u ts hs ih =>
    obtain ⟨js, hj, rfl⟩ := Option.map_eq_some_iff.mp h
    obtain ⟨hts, hn⟩ := ih hj fun w hw => hl w (.tail _ hw)
    obtain ⟨rfl, _⟩ := hs
    have hu := (hl _ (.head _)).signed u rfl
    obtain ⟨ho, hc⟩ := ne_paren_of_digits hu
    obtain ⟨ho', hc'⟩ := sign_ne_paren u
    constructor
    · exact List.forall_mem_cons.mpr ⟨legal_minus, List.forall_mem_cons.mpr ⟨legal_of_digits hu, hts⟩⟩
    · intro k
      rw [nest_cons (by decide) (by decide), nest_cons ho hc, nest_cons ho' hc', hn]
  | case5 prev t u ts _ ih =>
    obtain ⟨js, hj, rfl⟩ := Option.map_eq_some_iff.mp h
    obtain ⟨hts, hn⟩ := ih hj fun w hw => hl w (.tail _ hw)
    exact ⟨List.forall_mem_cons.mpr ⟨hl t (.head _), hts⟩, fun k => nest_congr hn⟩

theorem nested_arguments {ts a b c e : List Token} (h : arguments ts = [a, b, c, e])
    (ha : Nested a) (hb : Nested b) (hc : Nested c) (he : Nested e) : Nested ts := by
  have hcomma : Nested [","] := rfl
  rw [← intercalate_arguments ts, h]
  simp only [List.intercalate_cons_cons, List.intercalate_singleton]
  exact (ha.append hcomma).append ((hb.append hcomma).append ((hc.append hcomma).append he))

/-- Every token of an accepted expression is legal, and its parentheses nest. -/
theorem legal_of_lower :
    (∀ ts, ∀ {d v d'}, (lowerExpr ts).run d = .ok v d' → (∀ t ∈ ts, t.Legal) ∧ Nested ts) ∧
    (∀ ts, ∀ {d terms d'}, (lowerTerms ts).run d = .ok terms d' →
      (∀ t ∈ ts, t.Legal) ∧ ∀ k, nestTerms k terms = nest k ts) ∧
    (∀ ts, ∀ {d v d'}, (lowerChoose ts).run d = .ok v d' → (∀ t ∈ ts, t.Legal) ∧ Nested ts) := by
  refine lowerExpr.mutual_induct _ _ _ ?_ ?_ ?_ ?_ ?_ ?_ ?_ ?_ ?_ ?_ ?_
  · intro d v d' h
    rw [lowerExpr_nil] at h; cases h
  · intro t d v d' h
    rw [lowerExpr_singleton] at h
    obtain ⟨hl, hn⟩ := legal_of_lowerSingle h
    exact ⟨by simpa using hl, hn⟩
  · intro t u ts hj d v d' h
    rw [lowerExpr_cons_cons, hj] at h; cases h
  · intro t u ts joined hj he d v d' h
    simp only [lowerExpr_cons_cons, hj, he] at h; cases h
  · intro t u ts joined hj he ih d v d' h
    simp only [lowerExpr_cons_cons, hj, he] at h
    obtain ⟨terms, d₁, ht, hp⟩ := run_bind_ok h
    obtain ⟨hl, hn⟩ := ih ht
    obtain ⟨hlegal, hnest⟩ := legal_of_joinSigns hj hl
    refine ⟨hlegal, ?_⟩
    unfold lowerPostfix at hp
    split at hp
    · cases hp
    · rename_i cells hc
      rw [Nested, hnest, ← hn]
      exact nestTerms_of_toPostfix hc
  · intro d terms d' h
    rw [lowerTerms_nil] at h; cases h
    exact ⟨by simp, fun _ => rfl⟩
  · intro ts hg d terms d' h
    simp only [lowerTerms_cons, hg] at h; cases h
  · intro ts inner rest hg ihc iht d terms d' h
    simp only [lowerTerms_cons, hg] at h
    obtain ⟨v, d₁, hv, h⟩ := run_bind_ok h
    obtain ⟨terms', d₂, ht, h⟩ := run_bind_ok h
    cases h
    obtain ⟨hli, hni⟩ := ihc hv
    obtain ⟨hlr, hnr⟩ := iht ht
    have hchoose : Token.Legal "choose" := legal_of_head (by decide) (by decide)
    have hopen : Token.Legal "(" := legal_of_head (by decide) (by decide)
    have hclose : Token.Legal ")" := legal_of_head (by decide) (by decide)
    rw [eq_of_group? hg]
    constructor
    · intro t ht
      simp only [List.mem_cons, List.mem_append] at ht
      rcases ht with rfl | rfl | ht | rfl | ht
      · exact hchoose
      · exact hopen
      · exact hli t ht
      · exact hclose
      · exact hlr t ht
    · intro k
      rw [nest_cons (by decide) (by decide), nest_opening, nest_append, hni.nest_eq]
      exact hnr k
  · intro t ts hc c ht d terms d' h
    simp only [lowerTerms_cons, hc, ht] at h; cases h
  · intro t ts hc term ht ih d terms d' h
    simp only [lowerTerms_cons, hc, ht] at h
    obtain ⟨terms', d₁, ht', h⟩ := run_bind_ok h
    cases h
    obtain ⟨hl, hn⟩ := ih ht'
    obtain ⟨hlt, hnt⟩ := legal_of_ofToken ht hn
    exact ⟨List.forall_mem_cons.mpr ⟨hlt, hl⟩, hnt⟩
  · intro ts ih₁ ih₂ ih₃ ih₄ d v d' h
    rw [lowerChoose_eq] at h
    obtain ⟨dest, d₁, hd, h⟩ := run_bind_ok h
    split at h
    · rename_i s z p n ha
      obtain ⟨_, e₁, hs, h⟩ := run_bind_ok h
      obtain ⟨_, e₂, hz, h⟩ := run_bind_ok h
      obtain ⟨_, e₃, hp, h⟩ := run_bind_ok h
      obtain ⟨_, e₄, hn, h⟩ := run_bind_ok h
      obtain ⟨l₁, n₁⟩ := ih₁ s z p n ha hs
      obtain ⟨l₂, n₂⟩ := ih₂ s z p n ha hz
      obtain ⟨l₃, n₃⟩ := ih₃ s z p n ha hp
      obtain ⟨l₄, n₄⟩ := ih₄ s z p n ha hn
      refine ⟨?_, nested_arguments ha n₁ n₂ n₃ n₄⟩
      have hcomma : Token.Legal "," := legal_of_head (by decide) (by decide)
      rw [← intercalate_arguments ts, ha]
      simp only [List.intercalate_cons_cons, List.intercalate_singleton]
      intro t ht
      simp only [List.mem_append, List.mem_singleton] at ht
      grind
    · cases h

theorem legal_of_lowerExpr {ts : List Token} {d d' : Draft} {v : Operand}
    (h : (lowerExpr ts).run d = .ok v d') : ∀ t ∈ ts, t.Legal :=
  (legal_of_lower.1 ts h).1

theorem nested_of_lowerExpr {ts : List Token} {d d' : Draft} {v : Operand}
    (h : (lowerExpr ts).run d = .ok v d') : Nested ts :=
  (legal_of_lower.1 ts h).2

/-! ## Forms -/

namespace Form
variable {ts rest : List Token} {x : Token}

theorem ofTokens_print (h : Nested ts) : ofTokens ("print" :: "(" :: (ts ++ [")"])) = .ok (.print ts) := by
  have hc : ("print" :: "(" :: (ts ++ [")"])).count "(" = ("print" :: "(" :: (ts ++ [")"])).count ")" :=
    ((nested_singleton (by decide) (by decide)).append h.paren).count_eq
  have hlast : (ts ++ [")"]).getLast? = some ")" := List.getLast?_concat
  have hinit : (ts ++ [")"]).dropLast = ts := List.dropLast_concat
  obtain ⟨third, more, hm⟩ : ∃ third more, ts ++ [")"] = third :: more := by
    cases ts <;> exact ⟨_, _, rfl⟩
  rw [hm] at hc hlast hinit ⊢
  simp only [ofTokens, hc, hlast, hinit, ne_eq, not_true, and_self, if_false, if_true]

theorem ofTokens_assign (hx : x.isName) (h : Nested ts) (hne : ts ≠ []) :
    ofTokens (x :: "=" :: ts) = .ok (.assign x ts) := by
  have hc : (x :: "=" :: ts).count "(" = (x :: "=" :: ts).count ")" :=
    ((nested_singleton (ne_paren_of_isName hx).1 (ne_paren_of_isName hx).2).append
      ((nested_singleton (by decide) (by decide)).append h)).count_eq
  have hp : x ≠ "print" := ne_of_isName hx (by decide)
  have hi : x ≠ "if" := ne_of_isName hx (by decide)
  have hw : x ≠ "while" := ne_of_isName hx (by decide)
  obtain ⟨third, more, rfl⟩ := List.exists_cons_of_ne_nil hne
  simp only [ofTokens, hc, hp, hi, hw, ne_eq, not_true, if_false, if_true]

theorem ofTokens_control (c : Control) (h : Nested ts) (hr : rest.count "(" = rest.count ")") :
    ofTokens (c.keyword :: "(" :: (ts ++ ")" :: rest)) =
      .ok (.control c ("(" :: (ts ++ ")" :: rest))) := by
  have hc : (c.keyword :: "(" :: (ts ++ ")" :: rest)).count "(" =
      (c.keyword :: "(" :: (ts ++ ")" :: rest)).count ")" := by
    have := h.count_eq
    cases c <;> simp [Control.keyword] <;> omega
  obtain ⟨third, more, hm⟩ : ∃ third more, ts ++ ")" :: rest = third :: more := by
    cases ts <;> exact ⟨_, _, rfl⟩
  rw [hm] at hc ⊢
  cases c <;> simp [ofTokens, Control.keyword] at hc ⊢ <;> exact hc

end Form

end SlotCompiler
