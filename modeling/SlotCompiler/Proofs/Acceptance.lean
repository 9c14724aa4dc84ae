import SlotCompiler.Proofs.Alternation
import SlotCompiler.Proofs.Lexing

/-!
# Accepted expressions and the grammar

An expression is accepted once the numbers of its values and operators fit, whatever their order:
`1 2 +` is lowered as `1 + 2` is. `spelled_iff_separated` says which accepted texts spell an
expression of the language: those in which no operand stands right after another one.
-/

namespace SlotCompiler

/-! ## Separated operands -/

namespace Token

/-- A name, or what starts like a number and is no lone sign. -/
def isOperand (t : Token) : Bool := t.isName || t.isNumeric && t ≠ "-"

def startsOperand (t : Token) : Bool := t.isOperand || t = "(" || t = "choose"

def endsOperand (t : Token) : Bool := t.isOperand || t = ")"

end Token

/-- No operand starts right after the end of another one. -/
def Separated (ts : List Token) : Prop := ts.IsChain fun t u => ¬(t.endsOperand ∧ u.startsOperand)

instance : DecidablePred Separated := fun ts => inferInstanceAs (Decidable (ts.IsChain _))

section
variable {t : Token} {ts us vs : List Token}

theorem Separated.cons (h : Separated ts) (ht : t.endsOperand = false) : Separated (t :: ts) :=
  List.IsChain.cons h (by simp [ht])

theorem Separated.append_cons (h : Separated us) (ht : t.startsOperand = false) (hv : Separated (t :: vs)) :
    Separated (us ++ t :: vs) :=
  List.IsChain.append h hv (by simp [ht])

theorem Spelled.separated {k : Nat} {e : Expr} (h : Spelled k e ts) : Separated ts := by
  have hclose : Separated [")"] := List.isChain_singleton _
  induction h with
  | int => exact List.isChain_singleton _
  | negative => exact Separated.cons (List.isChain_singleton _) (by decide)
  | var => exact List.isChain_singleton _
  | paren _ ih => exact (ih.append_cons (by decide) hclose).cons (by decide)
  | choose _ _ _ _ ihs ihz ihp ihn =>
    have hcomma {us vs : List Token} (hu : Separated us) (hv : Separated vs) : Separated (us ++ "," :: vs) :=
      hu.append_cons (by decide) (hv.cons (by decide))
    rw [intercalate_four]
    have hargs := hcomma ihs (hcomma ihz (hcomma ihp ihn))
    exact ((hargs.append_cons (by decide) hclose).cons (by decide)).cons (by decide)
  | @op a _ _ _ _ _ _ ihl ihr =>
    have hs : a.token.startsOperand = false := by cases a <;> decide
    have he : a.token.endsOperand = false := by cases a <;> decide
    exact ihl.append_cons hs (ihr.cons he)
  | lower _ ih => exact ih

end

/-! ## Joined signs -/

/-- A sign and what it signs, as two tokens. -/
def Token.parts (t : Token) : List Token :=
  match t.toList with
  | '-' :: c :: cs => ["-", String.ofList (c :: cs)]
  | _ => [t]

def unjoin (ts : List Token) : List Token := ts.flatMap Token.parts

section
variable {t u : Token} {ts us : List Token}

@[simp] theorem unjoin_nil : unjoin [] = [] := rfl

@[simp] theorem unjoin_cons : unjoin (t :: ts) = t.parts ++ unjoin ts := List.flatMap_cons

@[simp] theorem unjoin_append : unjoin (ts ++ us) = unjoin ts ++ unjoin us := List.flatMap_append

@[simp] theorem Token.parts_sign (h : u ≠ "") : Token.parts ("-" ++ u) = ["-", u] := by
  cases hu : u.toList with
  | nil => exact absurd (String.toList_inj.mp (by simpa using hu)) h
  | cons c cs =>
    have ht : ("-" ++ u).toList = '-' :: c :: cs := by simp [hu]
    simp only [parts, ht]
    rw [← hu, String.ofList_toList]

@[simp] theorem Token.parts_minus : Token.parts "-" = ["-"] := rfl

@[simp] theorem Token.parts_opening : Token.parts "(" = ["("] := rfl

@[simp] theorem Token.parts_closing : Token.parts ")" = [")"] := rfl

@[simp] theorem Token.parts_comma : Token.parts "," = [","] := rfl

@[simp] theorem Token.parts_choose : Token.parts "choose" = ["choose"] := rfl

@[simp] theorem Token.parts_token (a : Arith) : a.token.parts = [a.token] := by cases a <;> rfl

theorem Token.parts_of_head (h : t.toList.head? ≠ some '-') : t.parts = [t] := by
  unfold parts
  split
  · rename_i ht
    simp [ht] at h
  · rfl

theorem Token.parts_of_isDigits (h : t.isDigits) : t.parts = [t] :=
  parts_of_head fun hs => by simp [isDigits, hs] at h

theorem Token.Atomic.parts_eq (h : t.Atomic) : t.parts = [t] := by
  cases h with
  | word _ hw =>
    refine parts_of_head fun hs => ?_
    exact absurd (hw '-' (List.mem_of_head? hs)).2 (by decide)
  | mark ht => simp [parts, ht]

theorem unjoin_lex (text : String) : unjoin (lex text) = lex text := by
  have key (ts : List Token) (h : ∀ t ∈ ts, t.Atomic ∨ t = "#") : unjoin ts = ts := by
    induction ts with
    | nil => rfl
    | cons t ts ih =>
      obtain ⟨ht, hts⟩ := List.forall_mem_cons.mp h
      have hparts : t.parts = [t] := ht.elim Token.Atomic.parts_eq (by rintro rfl; rfl)
      rw [unjoin_cons, hparts, ih hts]
      rfl
  exact key _ atomic_of_mem_lexChars

end

theorem ne_empty_of_mem_lex {text : String} : ∀ t ∈ lex text, t ≠ "" := by
  rintro _ ht rfl
  rcases atomic_of_mem_lexChars _ ht with h | h
  · cases h with
    | word hne => exact hne rfl
    | mark ht => cases ht
  · exact absurd h (by decide)

/-- No token is empty, and no operand follows another one. -/
structure Orderly (ts : List Token) : Prop where
  ne_empty : ∀ t ∈ ts, t ≠ ""
  separated : Separated ts

theorem Orderly.of_isInfix {ts us : List Token} (h : Orderly ts) (hu : us <:+: ts) : Orderly us :=
  ⟨fun t ht => h.ne_empty t (hu.subset ht), h.separated.infix hu⟩

theorem Orderly.cons {t : Token} {ts : List Token} (h : Orderly ts) (hne : t ≠ "")
    (ht : t.endsOperand = false) : Orderly (t :: ts) :=
  ⟨List.forall_mem_cons.mpr ⟨hne, h.ne_empty⟩, h.separated.cons ht⟩

theorem endsOperand_of_expectsOperand {t : Token} (h : expectsOperand (some t)) : t.endsOperand = false := by
  simp only [expectsOperand, Token.isOperator, Bool.or_eq_true, decide_eq_true_eq] at h
  rcases h with (h | rfl) | rfl
  · obtain ⟨a, ha⟩ := Option.isSome_iff_exists.mp h
    rcases Arith.eq_of_ofToken? ha with rfl | rfl | rfl | rfl <;> decide
  · decide
  · decide

theorem Token.isDigits_of_all {u : Token} (h : u ≠ "") (hd : u.toList.all Char.isDigit) : u.isDigits := by
  cases hu : u.toList with
  | nil => exact absurd (String.toList_inj.mp (by simpa using hu)) h
  | cons c cs =>
    have hc : c.isDigit := List.all_eq_true.mp hd c (by simp [hu])
    simp [isDigits, hu, hc]

theorem Token.isOperand_of_isDigits {u : Token} (h : u.isDigits) : u.isOperand := by
  have hne : u ≠ "-" := by rintro rfl; exact absurd h (by decide)
  simp [isOperand, isNumeric_of_isDigits h, hne]

/-- Joining the signs of orderly tokens leaves them orderly. Where no token stands before them, an
operator may as well. -/
theorem orderly_joinSigns {prev : Option Token} {ts joined : List Token}
    (h : joinSigns prev ts = some joined) (hl : ∀ t ∈ joined, t.Legal) (ho : Orderly (prev.getD "+" :: ts)) :
    Orderly (prev.getD "+" :: joined) ∧ unjoin joined = unjoin ts := by
  fun_induction joinSigns prev ts generalizing joined with
  | case1 => cases h; exact ⟨ho, rfl⟩
  | case2 => cases h
  | case3 => cases h; exact ⟨ho, rfl⟩
  | case4 prev t u ts hsign ih =>
    obtain ⟨js, hj, rfl⟩ := Option.map_eq_some_iff.mp h
    obtain ⟨rfl, hprev⟩ := hsign
    have hu : u ≠ "" := ho.ne_empty u (by simp)
    have hd : u.isDigits := Token.isDigits_of_all hu ((hl _ (.head _)).signed u rfl)
    have hprev : expectsOperand (some (prev.getD "+")) := by cases prev <;> exact hprev
    -- The joined token ends an operand just as its digits do.
    have hjoined : Orderly (("-" ++ u) :: ts) := by
      have hends : u.endsOperand := by simp [Token.endsOperand, Token.isOperand_of_isDigits hd]
      have htail : Orderly (u :: ts) := ho.of_isInfix ⟨[prev.getD "+", "-"], [], by simp⟩
      refine ⟨List.forall_mem_cons.mpr ⟨by simp, fun t ht => htail.ne_empty t (.tail _ ht)⟩, ?_⟩
      exact htail.separated.imp_head fun hz hz' => hz ⟨hends, hz'.2⟩
    obtain ⟨ho', hun⟩ := ih hj (fun w hw => hl w (.tail _ hw)) hjoined
    refine ⟨ho'.cons (ho.ne_empty _ (.head _)) (endsOperand_of_expectsOperand hprev), ?_⟩
    simp [hu, hun, Token.parts_of_isDigits hd]
  | case5 prev t u ts _ ih =>
    obtain ⟨js, hj, rfl⟩ := Option.map_eq_some_iff.mp h
    obtain ⟨ho', hun⟩ := ih hj (fun w hw => hl w (.tail _ hw)) (ho.of_isInfix ⟨[prev.getD "+"], [], by simp⟩)
    refine ⟨⟨?_, List.isChain_cons_cons.mpr ⟨(List.isChain_cons_cons.mp ho.separated).1, ho'.separated⟩⟩, ?_⟩
    · exact List.forall_mem_cons.mpr ⟨ho.ne_empty _ (.head _), ho'.ne_empty⟩
    · rw [unjoin_cons, hun, ← unjoin_cons]

/-! ## Terms and tokens -/

/-- The tokens that each term stands for; each of the values spells a factor. -/
inductive TermsOf : List Term → List Token → Prop
  | nil : TermsOf [] []
  | operand {v : Value} {e : Expr} {t : Token} {terms : List Term} {ts : List Token} :
    t.isOperand → Spelled 3 e t.parts → TermsOf terms ts → TermsOf (.value v :: terms) (t :: ts)
  | choice {v : Value} {e : Expr} {inner : List Token} {terms : List Term} {ts : List Token} :
    Spelled 3 e ("choose" :: "(" :: (unjoin inner ++ [")"])) → TermsOf terms ts →
    TermsOf (.value v :: terms) ("choose" :: "(" :: (inner ++ ")" :: ts))
  | op {a : Arith} {terms : List Term} {ts : List Token} :
    TermsOf terms ts → TermsOf (.op a :: terms) (a.token :: ts)
  | opening {terms : List Term} {ts : List Token} :
    TermsOf terms ts → TermsOf (.opening :: terms) ("(" :: ts)
  | closing {terms : List Term} {ts : List Token} :
    TermsOf terms ts → TermsOf (.closing :: terms) (")" :: ts)

namespace TermsOf
variable {terms : List Term} {ts : List Token}

theorem split {xs ys : List Term} (h : TermsOf (xs ++ ys) ts) :
    ∃ us vs, ts = us ++ vs ∧ TermsOf xs us ∧ TermsOf ys vs := by
  induction xs generalizing ts with
  | nil => exact ⟨[], ts, rfl, .nil, h⟩
  | cons x xs ih =>
    cases h with
    | operand ht he h =>
      obtain ⟨us, vs, rfl, hx, hy⟩ := ih h
      exact ⟨_ :: us, vs, rfl, .operand ht he hx, hy⟩
    | @choice _ _ inner _ _ he h =>
      obtain ⟨us, vs, rfl, hx, hy⟩ := ih h
      exact ⟨"choose" :: "(" :: (inner ++ ")" :: us), vs, by simp, .choice he hx, hy⟩
    | op h =>
      obtain ⟨us, vs, rfl, hx, hy⟩ := ih h
      exact ⟨_ :: us, vs, rfl, .op hx, hy⟩
    | opening h =>
      obtain ⟨us, vs, rfl, hx, hy⟩ := ih h
      exact ⟨_ :: us, vs, rfl, .opening hx, hy⟩
    | closing h =>
      obtain ⟨us, vs, rfl, hx, hy⟩ := ih h
      exact ⟨_ :: us, vs, rfl, .closing hx, hy⟩

theorem sparse (h : TermsOf terms ts) {p : Token} (hs : Separated (p :: ts)) :
    Sparse p.endsOperand terms := by
  induction h generalizing p with
  | nil => trivial
  | @operand v e t terms ts ht _ _ ih =>
    obtain ⟨hp, hs⟩ := List.isChain_cons_cons.mp hs
    have hends : t.endsOperand := by simp [Token.endsOperand, ht]
    refine ⟨?_, by simpa [hends] using ih hs⟩
    simpa [Token.startsOperand, ht] using hp
  | @choice v e inner terms ts _ _ ih =>
    obtain ⟨hp, hs⟩ := List.isChain_cons_cons.mp hs
    have hclose : Separated (")" :: ts) := hs.infix ⟨"choose" :: "(" :: inner, [], by simp⟩
    refine ⟨?_, ih hclose⟩
    simpa [Token.startsOperand] using hp
  | @op a terms ts _ ih =>
    have he : a.token.endsOperand = false := by cases a <;> decide
    have := ih (List.isChain_cons_cons.mp hs).2
    rwa [he] at this
  | opening _ ih =>
    obtain ⟨hp, hs⟩ := List.isChain_cons_cons.mp hs
    refine ⟨?_, ih hs⟩
    simpa [Token.startsOperand] using hp
  | closing _ ih => exact ih (List.isChain_cons_cons.mp hs).2

end TermsOf

theorem Infix.spelled {k : Nat} {t : Tree} {terms : List Term} (h : Infix k t terms) {ts : List Token}
    (hg : TermsOf terms ts) : ∃ e, Spelled k e (unjoin ts) := by
  induction h generalizing ts with
  | leaf v =>
    cases hg with
    | operand _ he hg =>
      cases hg
      exact ⟨_, by simpa using he⟩
    | choice he hg =>
      cases hg
      exact ⟨_, by simpa using he⟩
  | paren _ ih =>
    cases hg with
    | opening hg =>
      obtain ⟨us, vs, rfl, hu, hv⟩ := hg.split
      cases hv with
      | closing hv =>
        cases hv
        obtain ⟨e, he⟩ := ih hu
        exact ⟨e, by simpa using he.paren⟩
  | @node a l r ls rs _ _ ihl ihr =>
    obtain ⟨us, vs, rfl, hu, hv⟩ := hg.split
    cases hv with
    | op hv =>
      obtain ⟨l, hl⟩ := ihl hu
      obtain ⟨r, hr⟩ := ihr hv
      exact ⟨.op a l r, by simpa using hl.op hr⟩
  | lower _ ih =>
    obtain ⟨e, he⟩ := ih hg
    exact ⟨e, he.lower⟩

/-! ## Lowering -/

theorem spelled_number {t : Token} {n : Int32} (h : t.isNumeric) (hn : t.number? = some n) :
    Spelled 3 (.lit n) t.parts := by
  by_cases hd : t.isDigits
  · rw [Token.parts_of_isDigits hd]
    exact .int hd hn
  · obtain ⟨u, rfl⟩ : ∃ u, t = "-" ++ u := by
      unfold Token.isNumeric at h
      split at h
      · cases h
      · rename_i c cs ht
        have hc : c = '-' := by
          have hdigit : c.isDigit = false := by simpa [Token.isDigits, ht] using hd
          simpa [hdigit] using h
        exact ⟨String.ofList cs, String.toList_inj.mp (by simp [ht, hc])⟩
    have hu : u ≠ "" := by rintro rfl; exact absurd (number?_minus.symm.trans hn) (by simp)
    rw [Token.parts_sign hu]
    exact .negative (Token.isDigits_of_all hu (Token.toList_of_number? hn)) hn

theorem Arith.token_of_ofToken? {t : Token} {a : Arith} (h : ofToken? t = some a) : t = a.token := by
  unfold ofToken? at h
  repeat' split at h
  all_goals cases h
  all_goals assumption

theorem termsOf_of_ofToken {t : Token} {term : Term} {terms : List Term} {ts : List Token}
    (h : Term.ofToken t = .ok term) (hg : TermsOf terms ts) : TermsOf (term :: terms) (t :: ts) := by
  unfold Term.ofToken at h
  split at h
  · rename_i a ha
    cases h
    rw [Arith.token_of_ofToken? ha]
    exact .op hg
  split at h
  · rename_i ht
    cases h
    exact ht ▸ .opening hg
  split at h
  · rename_i ht
    cases h
    exact ht ▸ .closing hg
  split at h
  · rename_i hnum
    split at h
    · rename_i n hn
      cases h
      have hne : t ≠ "-" := by rintro rfl; exact absurd hn (by rw [number?_minus]; simp)
      exact .operand (by simp [Token.isOperand, hnum, hne]) (spelled_number hnum hn) hg
    · cases h
  split at h
  · rename_i hname
    cases h
    refine .operand (e := .var t) (by simp [Token.isOperand, hname]) ?_ hg
    rw [(Token.atomic_of_isName hname).parts_eq]
    exact .var hname
  · cases h

theorem spelled_of_lowerSingle {t : Token} {d d' : Draft} {v : Operand}
    (h : (lowerSingle t).run d = .ok v d') : ∃ e, Spelled 3 e t.parts := by
  unfold lowerSingle at h
  split at h
  · rename_i hnum
    split at h
    · rename_i n hn
      exact ⟨_, spelled_number hnum hn⟩
    · cases h
  · obtain ⟨slot, d₁, hd, _⟩ := run_bind_ok h
    have hname := isName_of_declare hd
    rw [(Token.atomic_of_isName hname).parts_eq]
    exact ⟨_, .var hname⟩

theorem spelled_of_lower :
    (∀ ts, Orderly ts → ∀ {d v d'}, (lowerExpr ts).run d = .ok v d' → ∃ e, Spelled 1 e (unjoin ts)) ∧
    (∀ ts, Orderly ts → ∀ {d terms d'}, (lowerTerms ts).run d = .ok terms d' → TermsOf terms ts) ∧
    (∀ ts, Orderly ts → ∀ {d v d'}, (lowerChoose ts).run d = .ok v d' →
      ∃ e, Spelled 3 e ("choose" :: "(" :: (unjoin ts ++ [")"]))) := by
  refine lowerExpr.mutual_induct _ _ _ ?_ ?_ ?_ ?_ ?_ ?_ ?_ ?_ ?_ ?_ ?_
  · intro _ d v d' h
    rw [lowerExpr_nil] at h; cases h
  · intro t _ d v d' h
    rw [lowerExpr_singleton] at h
    obtain ⟨e, he⟩ := spelled_of_lowerSingle h
    exact ⟨e, by simpa using he.lower.lower⟩
  · intro t u ts hj _ d v d' h
    rw [lowerExpr_cons_cons, hj] at h; cases h
  · intro t u ts joined hj he _ d v d' h
    simp only [lowerExpr_cons_cons, hj, he] at h; cases h
  · intro t u ts joined hj he ih ho d v d' h
    simp only [lowerExpr_cons_cons, hj, he] at h
    obtain ⟨terms, d₁, ht, hp⟩ := run_bind_ok h
    -- An operator in front gives the first operand something to stand behind.
    have hplus : Orderly ("+" :: t :: u :: ts) := ho.cons (by decide) (by decide)
    obtain ⟨hjoined, hun⟩ := orderly_joinSigns hj (legal_of_lower.2.1 joined ht).1 hplus
    have hg := ih (hjoined.of_isInfix ⟨["+"], [], by simp⟩) ht
    obtain ⟨tree, htree⟩ := exists_tree_of_lowerPostfix hp (hg.sparse hjoined.separated)
    rw [← hun]
    exact htree.spelled hg
  · intro _ d terms d' h
    rw [lowerTerms_nil] at h; cases h
    exact .nil
  · intro ts hg _ d terms d' h
    simp only [lowerTerms_cons, hg] at h; cases h
  · intro ts inner rest hg ihc iht ho d terms d' h
    simp only [lowerTerms_cons, hg] at h
    obtain ⟨v, d₁, hv, h⟩ := run_bind_ok h
    obtain ⟨terms', d₂, ht, h⟩ := run_bind_ok h
    cases h
    rw [eq_of_group? hg] at ho ⊢
    obtain ⟨e, he⟩ := ihc (ho.of_isInfix ⟨["choose", "("], ")" :: rest, by simp⟩) hv
    exact .choice he (iht (ho.of_isInfix ⟨"choose" :: "(" :: (inner ++ [")"]), [], by simp⟩) ht)
  · intro t ts hc c ht _ d terms d' h
    simp only [lowerTerms_cons, hc, ht] at h; cases h
  · intro t ts hc term ht ih ho d terms d' h
    simp only [lowerTerms_cons, hc, ht] at h
    obtain ⟨terms', d₁, ht', h⟩ := run_bind_ok h
    cases h
    exact termsOf_of_ofToken ht (ih (ho.of_isInfix ⟨[t], [], by simp⟩) ht')
  · intro ts ih₁ ih₂ ih₃ ih₄ ho d v d' h
    rw [lowerChoose_eq] at h
    obtain ⟨dest, d₁, hd, h⟩ := run_bind_ok h
    split at h
    · rename_i s z p n ha
      obtain ⟨_, e₁, hs, h⟩ := run_bind_ok h
      obtain ⟨_, e₂, hz, h⟩ := run_bind_ok h
      obtain ⟨_, e₃, hp, h⟩ := run_bind_ok h
      obtain ⟨_, e₄, hn, h⟩ := run_bind_ok h
      have hts := intercalate_arguments ts
      rw [ha, intercalate_four] at hts
      subst hts
      obtain ⟨_, hs⟩ := ih₁ s z p n ha (ho.of_isInfix ⟨[], _, rfl⟩) hs
      obtain ⟨_, hz⟩ := ih₂ s z p n ha (ho.of_isInfix ⟨s ++ [","], "," :: (p ++ "," :: n), by simp⟩) hz
      obtain ⟨_, hp⟩ := ih₃ s z p n ha (ho.of_isInfix ⟨s ++ "," :: (z ++ [","]), "," :: n, by simp⟩) hp
      obtain ⟨_, hn⟩ :=
        ih₄ s z p n ha (ho.of_isInfix ⟨s ++ "," :: (z ++ "," :: (p ++ [","])), [], by simp⟩) hn
      exact ⟨_, by simpa [intercalate_four] using hs.choose hz hp hn⟩
    · cases h

/-- An accepted text spells an expression just if no operand in it stands right after another one. -/
theorem spelled_iff_separated {text : String} {v : Operand} {d d' : Draft}
    (h : (lowerExpr (lex text)).run d = .ok v d') :
    (∃ e, Spelled 1 e (lex text)) ↔ Separated (lex text) := by
  constructor
  · rintro ⟨e, he⟩
    exact he.separated
  · intro hs
    have := spelled_of_lower.1 (lex text) ⟨ne_empty_of_mem_lex, hs⟩ h
    rwa [unjoin_lex] at this

theorem spelled_iff_separated_product : ∃ e, Spelled 1 e (lex "-2*(x+3)") := by
  obtain ⟨v, d, h⟩ : ∃ v d, (lowerExpr (lex "-2*(x+3)")).run {} = .ok v d := ⟨_, _, by cbv⟩
  exact (spelled_iff_separated h).mpr (by decide +kernel)

/-- The numbers of values and operators do not tell that the operator stands last. -/
theorem postfix_accepted :
    (lowerExpr (lex "1 2 +")).run {} =
        .ok (.temp 1) { temps := 1, code := [.arith 1 .add (.literal 1) (.literal 2)] } ∧
      (lowerExpr (lex "1 2 +")).run {} = (lowerExpr (lex "1 + 2")).run {} ∧
      ¬∃ e, Spelled 1 e (lex "1 2 +") := by
  have hpost : (lowerExpr (lex "1 2 +")).run {} =
      .ok (.temp 1) { temps := 1, code := [.arith 1 .add (.literal 1) (.literal 2)] } := by cbv
  have hin : (lowerExpr (lex "1 + 2")).run {} =
      .ok (.temp 1) { temps := 1, code := [.arith 1 .add (.literal 1) (.literal 2)] } := by cbv
  refine ⟨hpost, hpost.trans hin.symm, ?_⟩
  rintro ⟨e, he⟩
  exact absurd he.separated (by decide +kernel)

end SlotCompiler
