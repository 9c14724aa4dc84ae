import SlotCompiler.Program.Basic
import SlotCompiler.Proofs.Groups
import SlotCompiler.Proofs.Shunting

/-!
# Spelled expressions

The tokens of an expression are lowered as the expression itself would be: its choices from left to
right, then its operations. `Expr.lower` does that by recursion on the expression, and
`lowerExpr_spelled` says that every spelling is lowered so.
-/

namespace SlotCompiler

namespace Expr

/-- Lowers the choices; what is left to do is a tree. -/
def collect : Expr → EStateM Cause Draft Tree
  | .lit n => pure (.leaf (.ready (.literal n)))
  | .var x => pure (.leaf (.var x))
  | .op a l r => do
    let lhs ← l.collect
    let rhs ← r.collect
    return .node a lhs rhs
  | .choose selector onZero onPositive onNegative => do
    let dest ← freshTemp
    let s ← selector.collect >>= fun t => t.lower >>= Value.fetch
    let z ← onZero.collect >>= fun t => t.lower >>= Value.fetch
    let p ← onPositive.collect >>= fun t => t.lower >>= Value.fetch
    let n ← onNegative.collect >>= fun t => t.lower >>= Value.fetch
    let v ← lowerSelect (.temp dest) s z p n
    return .leaf (.ready v)

def lower (e : Expr) : EStateM Cause Draft Operand := e.collect >>= fun t => t.lower >>= Value.fetch

end Expr

/-- The tokens of an expression; with `signs`, a minus sign may still stand apart from its digits. -/
inductive Reads (signs : Bool) : Nat → Expr → List Token → Prop
  | int {t : Token} {n : Int32} : t.isNumeric → t.number? = some n → Reads signs 3 (.lit n) [t]
  | negative {t : Token} {n : Int32} :
    signs → t.isDigits → Token.number? ("-" ++ t) = some n → Reads signs 3 (.lit n) ["-", t]
  | var {x : Token} : x.isName → Reads signs 3 (.var x) [x]
  | paren {e : Expr} {ts : List Token} : Reads signs 1 e ts → Reads signs 3 e ("(" :: (ts ++ [")"]))
  | choose {s z p n : Expr} {ss zs ps ns : List Token} :
    Reads signs 1 s ss → Reads signs 1 z zs → Reads signs 1 p ps → Reads signs 1 n ns →
    Reads signs 3 (.choose s z p n)
      ("choose" :: "(" :: ([","].intercalate [ss, zs, ps, ns] ++ [")"]))
  | op {a : Arith} {l r : Expr} {ls rs : List Token} :
    Reads signs a.rank l ls → Reads signs (a.rank + 1) r rs →
    Reads signs a.rank (.op a l r) (ls ++ a.token :: rs)
  | lower {k : Nat} {e : Expr} {ts : List Token} : Reads signs (k + 1) e ts → Reads signs k e ts

theorem Token.isNumeric_of_isDigits {t : Token} (h : t.isDigits) : t.isNumeric := by
  unfold isDigits at h
  unfold isNumeric
  cases ht : t.toList with
  | nil => simp [ht] at h
  | cons c cs => simp_all

theorem Spelled.reads {k : Nat} {e : Expr} {ts : List Token} (h : Spelled k e ts) :
    Reads true k e ts := by
  induction h with
  | int hd hn => exact .int (Token.isNumeric_of_isDigits hd) hn
  | negative hd hn => exact .negative rfl hd hn
  | var hx => exact .var hx
  | paren _ ih => exact .paren ih
  | choose _ _ _ _ hs hz hp hn => exact .choose hs hz hp hn
  | op _ _ hl hr => exact .op hl hr
  | lower _ ih => exact .lower ih

/-! ## Tokens -/

section
variable {t x : Token} {n : Int32} {a : Arith}

theorem number?_minus : Token.number? "-" = none := by decide

theorem Arith.ofToken?_number (h : t.isNumeric) (hn : t.number? = some n) : ofToken? t = none := by
  refine Option.eq_none_iff_forall_ne_some.mpr fun a ha => ?_
  rcases eq_of_ofToken? ha with rfl | rfl | rfl | rfl
  · exact absurd h (by decide)
  · exact absurd hn (by rw [number?_minus]; simp)
  · exact absurd h (by decide)
  · exact absurd h (by decide)

theorem Arith.ofToken?_name (h : x.isName) : ofToken? x = none := by
  refine Option.eq_none_iff_forall_ne_some.mpr fun a ha => ?_
  rcases eq_of_ofToken? ha with rfl | rfl | rfl | rfl <;> exact absurd h (by decide)

theorem ofToken_number (h : t.isNumeric) (hn : t.number? = some n) :
    Term.ofToken t = .ok (.value (.ready (.literal n))) := by
  obtain ⟨ho, hc⟩ := ne_paren_of_isNumeric h
  simp [Term.ofToken, Arith.ofToken?_number h hn, ho, hc, h, hn]

theorem not_digit_of_isNameStart {c : Char} (h : isNameStart c) : (c.isDigit || c = '-') = false := by
  simp only [isNameStart, Char.isAlpha, Char.isUpper, Char.isLower, Bool.or_eq_true, Bool.and_eq_true,
    decide_eq_true_eq, ge_iff_le, UInt32.le_iff_toNat_le] at h
  rcases h with (⟨h₁, h₂⟩ | ⟨h₁, h₂⟩) | rfl
  · have hne : c ≠ '-' := by rintro rfl; exact absurd h₁ (by decide)
    simp [Char.isDigit, hne, UInt32.le_iff_toNat_le] at h₁ ⊢
    omega
  · have hne : c ≠ '-' := by rintro rfl; exact absurd h₁ (by decide)
    simp [Char.isDigit, hne, UInt32.le_iff_toNat_le] at h₁ ⊢
    omega
  · decide

theorem Token.not_isNumeric_of_isName (h : x.isName) : x.isNumeric = false := by
  unfold isName at h
  unfold isNumeric
  split at h
  · cases h
  · simp only [Bool.and_eq_true] at h
    exact not_digit_of_isNameStart h.1.1

theorem ofToken_name (h : x.isName) : Term.ofToken x = .ok (.value (.var x)) := by
  obtain ⟨ho, hc⟩ := ne_paren_of_isName h
  simp [Term.ofToken, Arith.ofToken?_name h, ho, hc, h, Token.not_isNumeric_of_isName h]

theorem lowerSingle_number (h : t.isNumeric) (hn : t.number? = some n) :
    lowerSingle t = pure (.literal n) := by
  simp [lowerSingle, h, hn]

theorem lowerSingle_name (h : x.isName) : lowerSingle x = loadVar x := by
  simp [lowerSingle, Token.not_isNumeric_of_isName h]

end

/-! ## Signs -/

section
variable {prev : Option Token} {t u : Token} {ts : List Token}

theorem joinSigns_cons (h : ¬(t = "-" ∧ expectsOperand prev)) :
    joinSigns prev (t :: ts) = (joinSigns (some t) ts).map (t :: ·) := by
  cases ts with
  | nil => simp only [joinSigns, if_neg h]; rfl
  | cons u ts => rw [joinSigns, if_neg h]

theorem joinSigns_sign (h : expectsOperand prev) :
    joinSigns prev ("-" :: u :: ts) = (joinSigns (some ("-" ++ u)) ts).map (("-" ++ u) :: ·) := by
  rw [joinSigns, if_pos ⟨rfl, h⟩]

end

theorem expectsOperand_number {t : Token} {n : Int32} (h : t.isNumeric) (hn : t.number? = some n) :
    expectsOperand (some t) = false := by
  have ho := (ne_paren_of_isNumeric h).1
  have hc : t ≠ "," := ne_of_isNumeric h (by decide)
  simp [expectsOperand, Token.isOperator, Arith.ofToken?_number h hn, ho, hc]

theorem expectsOperand_name {x : Token} (h : x.isName) : expectsOperand (some x) = false := by
  have ho := (ne_paren_of_isName h).1
  have hc : x ≠ "," := ne_of_isName h (by decide)
  simp [expectsOperand, Token.isOperator, Arith.ofToken?_name h, ho, hc]

theorem expectsOperand_token (a : Arith) : expectsOperand (some a.token) := by
  cases a <;> decide

theorem intercalate_four (ss zs ps ns : List Token) : [","].intercalate [ss, zs, ps, ns] =
    ss ++ "," :: (zs ++ "," :: (ps ++ "," :: ns)) := by
  simp [List.intercalate_cons_cons]

/-- Signs are joined with their digits, and nothing else changes. -/
theorem Reads.joinSigns_append {signs : Bool} {k : Nat} {e : Expr} {ts : List Token}
    (h : Reads signs k e ts) {p : Option Token} (hp : expectsOperand p) :
    ∃ gs last, Reads false k e gs ∧ (signs = false → gs = ts) ∧ expectsOperand (some last) = false ∧
      ∀ rest, joinSigns p (ts ++ rest) = (joinSigns (some last) rest).map (gs ++ ·) := by
  induction h generalizing p with
  | @int t n ht hn =>
    have hne : t ≠ "-" := by rintro rfl; exact absurd hn (by rw [number?_minus]; simp)
    refine ⟨[t], t, .int ht hn, fun _ => rfl, expectsOperand_number ht hn, fun rest => ?_⟩
    exact joinSigns_cons fun h => hne h.1
  | @negative t n hs ht hn =>
    have hnum : Token.isNumeric ("-" ++ t) := by simp [Token.isNumeric]
    refine ⟨["-" ++ t], "-" ++ t, .int hnum hn, fun h => absurd hs (by simp [h]),
      expectsOperand_number hnum hn, fun rest => ?_⟩
    exact joinSigns_sign hp
  | @var x hx =>
    have hne : x ≠ "-" := ne_of_isName hx (by decide)
    refine ⟨[x], x, .var hx, fun _ => rfl, expectsOperand_name hx, fun rest => ?_⟩
    exact joinSigns_cons fun h => hne h.1
  | @paren e ts _ ih =>
    obtain ⟨gs, last, hg, heq, hlast, hrun⟩ := ih (p := some "(") rfl
    refine ⟨"(" :: (gs ++ [")"]), ")", .paren hg, fun h => by rw [heq h], by decide, fun rest => ?_⟩
    rw [List.cons_append, joinSigns_cons (by simp), List.append_assoc, hrun, List.singleton_append,
      joinSigns_cons (by simp)]
    simp [Function.comp_def]
  | @choose s z p n ss zs ps ns _ _ _ _ ihs ihz ihp ihn =>
    obtain ⟨gss, _, hgs, heqs, hlasts, hruns⟩ := ihs (p := some "(") rfl
    obtain ⟨gzs, _, hgz, heqz, hlastz, hrunz⟩ := ihz (p := some ",") rfl
    obtain ⟨gps, _, hgp, heqp, hlastp, hrunp⟩ := ihp (p := some ",") rfl
    obtain ⟨gns, _, hgn, heqn, hlastn, hrunn⟩ := ihn (p := some ",") rfl
    refine ⟨"choose" :: "(" :: ([","].intercalate [gss, gzs, gps, gns] ++ [")"]), ")",
      .choose hgs hgz hgp hgn, fun h => by rw [heqs h, heqz h, heqp h, heqn h], by decide, fun rest => ?_⟩
    rw [intercalate_four, intercalate_four]
    simp only [List.cons_append, List.append_assoc, List.nil_append]
    rw [joinSigns_cons (by simp), joinSigns_cons (by simp), hruns, joinSigns_cons (by simp), hrunz,
      joinSigns_cons (by simp), hrunp, joinSigns_cons (by simp), hrunn, joinSigns_cons (by simp)]
    simp [Function.comp_def]
  | @op a l r ls rs _ _ ihl ihr =>
    obtain ⟨gl, lastl, hgl, heql, hlastl, hrunl⟩ := ihl hp
    obtain ⟨gr, lastr, hgr, heqr, hlastr, hrunr⟩ := ihr (expectsOperand_token a)
    refine ⟨gl ++ a.token :: gr, lastr, .op hgl hgr, fun h => by rw [heql h, heqr h], hlastr,
      fun rest => ?_⟩
    rw [List.append_assoc, hrunl, List.cons_append, joinSigns_cons (by simp [hlastl]), hrunr]
    simp [Function.comp_def]
  | lower _ ih =>
    obtain ⟨gs, last, hg, heq, hlast, hrun⟩ := ih hp
    exact ⟨gs, last, .lower hg, heq, hlast, hrun⟩

/-! ## Groups -/

theorem Reads.whole {signs : Bool} {k : Nat} {e : Expr} {ts : List Token} (h : Reads signs k e ts) :
    Whole ts := by
  have hcomma : Nested [","] := rfl
  induction h with
  | @int t n ht hn =>
    obtain ⟨ho, hc⟩ := ne_paren_of_isNumeric ht
    exact whole_singleton ho hc (ne_of_isNumeric ht (by decide))
  | @negative t n _ ht hn =>
    have hnum := Token.isNumeric_of_isDigits ht
    obtain ⟨ho, hc⟩ := ne_paren_of_isNumeric hnum
    have hw : Whole [t] := whole_singleton ho hc (ne_of_isNumeric hnum (by decide))
    exact (whole_singleton (by decide) (by decide) (by decide) : Whole ["-"]).append hw
  | @var x hx =>
    obtain ⟨ho, hc⟩ := ne_paren_of_isName hx
    exact whole_singleton ho hc (ne_of_isName hx (by decide))
  | paren _ ih => exact ih.nested.whole
  | choose _ _ _ _ hs hz hp hn =>
    have hinner := hs.nested.append (hcomma.append (hz.nested.append (hcomma.append
      (hp.nested.append (hcomma.append hn.nested)))))
    have hname : Whole ["choose"] := whole_singleton (by decide) (by decide) (by decide)
    have hwhole := hname.append hinner.whole
    simpa [intercalate_four] using hwhole
  | @op a l r ls rs _ _ hl hr =>
    have hop : Whole [a.token] := by cases a <;> exact whole_singleton (by decide) (by decide) (by decide)
    exact hl.append (hop.append hr)
  | lower _ ih => exact ih

theorem hasEmptyGroup_cons {t : Token} (h : t ≠ "(") (ts : List Token) :
    hasEmptyGroup (t :: ts) = hasEmptyGroup ts := by
  simp [hasEmptyGroup, h]

theorem hasEmptyGroup_opening {ts : List Token} (h : ∃ t us, ts = t :: us ∧ t ≠ ")") (rest : List Token) :
    hasEmptyGroup ("(" :: (ts ++ rest)) = hasEmptyGroup (ts ++ rest) := by
  obtain ⟨t, us, rfl, ht⟩ := h
  rw [hasEmptyGroup]
  simp [ht]

theorem Reads.hasEmptyGroup_append {k : Nat} {e : Expr} {ts : List Token} (h : Reads false k e ts) :
    (∃ t us, ts = t :: us ∧ t ≠ ")") ∧ ∀ rest, hasEmptyGroup (ts ++ rest) = hasEmptyGroup rest := by
  have hclose : ∀ rest, hasEmptyGroup (")" :: rest) = hasEmptyGroup rest :=
    hasEmptyGroup_cons (by decide)
  have hcomma : ∀ rest, hasEmptyGroup ("," :: rest) = hasEmptyGroup rest :=
    hasEmptyGroup_cons (by decide)
  induction h with
  | @int t n ht hn =>
    obtain ⟨ho, hc⟩ := ne_paren_of_isNumeric ht
    exact ⟨⟨t, [], rfl, hc⟩, hasEmptyGroup_cons ho⟩
  | negative hs => cases hs
  | @var x hx =>
    obtain ⟨ho, hc⟩ := ne_paren_of_isName hx
    exact ⟨⟨x, [], rfl, hc⟩, hasEmptyGroup_cons ho⟩
  | @paren e ts _ ih =>
    obtain ⟨hfirst, hrun⟩ := ih
    refine ⟨⟨"(", _, rfl, by decide⟩, fun rest => ?_⟩
    rw [List.cons_append, List.append_assoc, hasEmptyGroup_opening hfirst, hrun, List.singleton_append,
      hclose]
  | @choose s z p n ss zs ps ns _ _ _ _ ihs ihz ihp ihn =>
    refine ⟨⟨"choose", _, rfl, by decide⟩, fun rest => ?_⟩
    simp only [intercalate_four, List.cons_append, List.append_assoc, List.nil_append]
    rw [hasEmptyGroup_cons (by decide), hasEmptyGroup_opening ihs.1, ihs.2, hcomma, ihz.2, hcomma, ihp.2,
      hcomma, ihn.2, hclose]
  | @op a l r ls rs _ _ ihl ihr =>
    obtain ⟨⟨t, us, hls, ht⟩, hrunl⟩ := ihl
    have ho : a.token ≠ "(" := by cases a <;> decide
    refine ⟨⟨t, us ++ a.token :: rs, by simp [hls], ht⟩, fun rest => ?_⟩
    rw [List.append_assoc, hrunl, List.cons_append, hasEmptyGroup_cons ho, ihr.2]
  | lower _ ih => exact ih

/-! ## Lowering -/

section
variable {ε σ α β : Type}

theorem bind_congr_ok {x : EStateM ε σ α} {f g : α → EStateM ε σ β}
    (h : ∀ {s a s'}, x.run s = .ok a s' → f a = g a) : x >>= f = x >>= g := by
  funext s
  change (x >>= f).run s = (x >>= g).run s
  rw [EStateM.run_bind, EStateM.run_bind]
  cases hx : x.run s with
  | ok a s' => simp only [h hx]
  | error e s' => rfl

end

def Tree.single : Tree → List Term
  | .leaf v => [.value v]
  | .node .. => []

def Tree.joined (left right : Tree → List Term) : Tree → List Term
  | .leaf _ => []
  | .node a l r => left l ++ .op a :: right r

/-- The tokens turn into the terms of the tree that the expression leaves. -/
def Gathers (k : Nat) (e : Expr) (ts : List Token) : Prop :=
  ∃ render : Tree → List Term, (∀ {d t d'}, e.collect.run d = .ok t d' → Infix k t (render t)) ∧
    ∀ rest, lowerTerms (ts ++ rest) =
      e.collect >>= fun t => lowerTerms rest >>= fun more => pure (render t ++ more)

theorem lowerTerms_term {t : Token} {term : Term} (hc : t ≠ "choose") (h : Term.ofToken t = .ok term)
    (ts : List Token) :
    lowerTerms (t :: ts) = lowerTerms ts >>= fun terms => pure (term :: terms) := by
  rw [lowerTerms_cons, if_neg hc, h]

theorem Reads.ne_nil {signs : Bool} {k : Nat} {e : Expr} {ts : List Token} (h : Reads signs k e ts) :
    ts ≠ [] := by
  induction h with
  | lower _ ih => exact ih
  | _ => simp

theorem Reads.lowerExpr_singleton {signs : Bool} {k : Nat} {e : Expr} {t : Token}
    (h : Reads signs k e [t]) : lowerExpr [t] = e.lower := by
  rw [SlotCompiler.lowerExpr_singleton]
  generalize hts : [t] = ts at h
  induction h with
  | int ht hn => cases hts; rw [lowerSingle_number ht hn]; rfl
  | negative => simp at hts
  | var hx => cases hts; rw [lowerSingle_name hx]; rfl
  | paren => simp at hts
  | choose => simp at hts
  | @op a l r ls rs hl hr =>
    have := congrArg List.length hts
    have := List.length_pos_iff.mpr hl.ne_nil
    simp at *
    omega
  | lower _ ih => exact ih hts

/-- Two ways from the tokens of an expression to its code: the short one for a single token, and the
one through its terms. -/
theorem Reads.lowerExpr_eq {signs : Bool} {k : Nat} {e : Expr} {ts : List Token}
    (h : Reads signs k e ts) (hg : ∀ {gs}, Reads false k e gs → (signs = false → gs = ts) →
      Gathers k e gs) : lowerExpr ts = e.lower := by
  obtain ⟨gs, last, hgs, heq, _, hjoin⟩ := h.joinSigns_append (p := none) rfl
  have hjoin : joinSigns none ts = some gs := by simpa [joinSigns] using hjoin []
  match ts, h with
  | [], h => exact absurd rfl h.ne_nil
  | [t], h => exact h.lowerExpr_singleton
  | t :: u :: ts, h =>
    obtain ⟨render, hread, hterms⟩ := hg hgs heq
    have hempty : hasEmptyGroup gs = false := by
      simpa [hasEmptyGroup] using hgs.hasEmptyGroup_append.2 []
    have hterms : lowerTerms gs = e.collect >>= fun t => pure (render t) := by
      have := hterms []
      simpa [lowerTerms_nil] using this
    rw [lowerExpr_cons_cons, hjoin]
    simp only [hempty, hterms, bind_assoc, pure_bind]
    exact bind_congr_ok fun ht => lowerPostfix_infix (hread ht)

theorem Reads.gathers {k : Nat} {e : Expr} {ts : List Token} (h : Reads false k e ts) :
    Gathers k e ts := by
  induction h with
  | @int t n ht hn =>
    refine ⟨fun _ => [.value (.ready (.literal n))], ?_, fun rest => ?_⟩
    · intro d t d' h
      cases h
      exact .leaf _
    · exact lowerTerms_term (ne_of_isNumeric ht (by decide)) (ofToken_number ht hn) rest
  | negative hs => cases hs
  | @var x hx =>
    refine ⟨fun _ => [.value (.var x)], ?_, fun rest => ?_⟩
    · intro d t d' h
      cases h
      exact .leaf _
    · exact lowerTerms_term (ne_of_isName hx (by decide)) (ofToken_name hx) rest
  | @paren e ts _ ih =>
    obtain ⟨render, hread, hterms⟩ := ih
    refine ⟨fun t => .opening :: (render t ++ [.closing]), fun h => .paren (hread h), fun rest => ?_⟩
    rw [List.cons_append, lowerTerms_term (by decide) rfl, List.append_assoc, hterms]
    simp only [List.singleton_append, lowerTerms_term (by decide : ")" ≠ "choose") rfl, bind_assoc,
      pure_bind]
    simp
  | @choose s z p n ss zs ps ns hs hz hp hn ihs ihz ihp ihn =>
    have hes : lowerExpr ss = s.lower := hs.lowerExpr_eq fun _ heq => heq rfl ▸ ihs
    have hez : lowerExpr zs = z.lower := hz.lowerExpr_eq fun _ heq => heq rfl ▸ ihz
    have hep : lowerExpr ps = p.lower := hp.lowerExpr_eq fun _ heq => heq rfl ▸ ihp
    have hen : lowerExpr ns = n.lower := hn.lowerExpr_eq fun _ heq => heq rfl ▸ ihn
    have hargs : arguments ([","].intercalate [ss, zs, ps, ns]) = [ss, zs, ps, ns] :=
      arguments_intercalate (by simp) (by simp [hs.whole, hz.whole, hp.whole, hn.whole])
    have hinner : Nested ([","].intercalate [ss, zs, ps, ns]) :=
      nested_arguments hargs hs.whole.nested hz.whole.nested hp.whole.nested hn.whole.nested
    -- All that is left of a choice is the temporary with its value.
    refine ⟨Tree.single, ?_, fun rest => ?_⟩
    · intro d t d' h
      obtain ⟨dest, _, _, h⟩ := run_bind_ok h
      obtain ⟨_, _, _, h⟩ := run_bind_ok h
      obtain ⟨_, _, _, h⟩ := run_bind_ok h
      obtain ⟨_, _, _, h⟩ := run_bind_ok h
      obtain ⟨_, _, _, h⟩ := run_bind_ok h
      obtain ⟨_, _, _, h⟩ := run_bind_ok h
      cases h
      exact .leaf _
    · have hgroup := group?_of_nested hinner rest
      rw [List.cons_append, List.cons_append, List.append_assoc, List.singleton_append, lowerTerms_cons,
        if_pos rfl, hgroup]
      simp only [lowerChoose_eq, hargs, hes, hez, hep, hen, Expr.collect, Expr.lower, bind_assoc,
        pure_bind]
      rfl
  | @op a l r ls rs _ _ ihl ihr =>
    obtain ⟨left, hleft, hls⟩ := ihl
    obtain ⟨right, hright, hrs⟩ := ihr
    refine ⟨Tree.joined left right, ?_, fun rest => ?_⟩
    · intro d t d' h
      obtain ⟨lhs, _, hl, h⟩ := run_bind_ok h
      obtain ⟨rhs, _, hr, h⟩ := run_bind_ok h
      cases h
      exact .node (hleft hl) (hright hr)
    · have hne : a.token ≠ "choose" := by cases a <;> decide
      have hof : Term.ofToken a.token = .ok (.op a) := by cases a <;> rfl
      rw [List.append_assoc, hls, Expr.collect]
      simp only [List.cons_append, lowerTerms_term hne hof, hrs, bind_assoc, pure_bind]
      simp [Tree.joined]
  | lower _ ih =>
    obtain ⟨render, hread, hterms⟩ := ih
    exact ⟨render, fun h => .lower (hread h), hterms⟩

/-- Every spelling of an expression is lowered as the expression is. -/
theorem lowerExpr_spelled {k : Nat} {e : Expr} {ts : List Token} (h : Spelled k e ts) :
    lowerExpr ts = e.lower :=
  h.reads.lowerExpr_eq fun hg _ => hg.gathers

end SlotCompiler
