import SlotCompiler.Proofs.Spelling

/-!
# Names of variables are interchangeable

Nothing in the lowering depends on which name a variable has: every test on a token tells names from
other tokens, and never one name from another. `lowerLines_rename`: renamed lines get the code of the
lines with its slots renamed, or fail where they fail.

A sign is joined with the token behind it, so that inside of an expression a name may be part of a
larger token. Such a token is no number, before the renaming and after it, and that is all there is to
say of it: `Token.Counterpart`.
-/

namespace SlotCompiler

/-- Takes names to names, and no two of them to one. -/
structure Renaming where
  map : String → String
  isName : ∀ x, Token.isName x → Token.isName (map x)
  injective : ∀ x y, Token.isName x → Token.isName y → map x = map y → x = y

/-- Tokens that are no names stay as they are. -/
def Token.rename (r : Renaming) (t : Token) : Token := if t.isName then r.map t else t

def Line.rename (r : Renaming) (l : Line) : Line := { l with tokens := l.tokens.map (Token.rename r) }

def Slot.rename (r : Renaming) : Slot → Slot
  | .var x => .var (Token.rename r x)
  | .temp t => .temp t

def Instr.rename (r : Renaming) : Instr → Instr
  | .alloca slot => .alloca (slot.rename r)
  | .store v slot => .store v (slot.rename r)
  | .load dest slot => .load dest (slot.rename r)
  | i => i

def Draft.rename (r : Renaming) (d : Draft) : Draft :=
  { d with vars := d.vars.map (Token.rename r), code := d.code.map (Instr.rename r) }

section
variable {r : Renaming} {t u : Token}

theorem Token.rename_of_isName (h : t.isName) : t.rename r = r.map t := if_pos h

theorem Token.rename_of_not_isName (h : t.isName = false) : t.rename r = t := by
  unfold rename
  rw [h]
  rfl

theorem Token.isName_rename : (t.rename r).isName = t.isName := by
  by_cases h : t.isName
  · rw [rename_of_isName h, h]
    exact r.isName t h
  · rw [rename_of_not_isName (by simpa using h)]

theorem Token.rename_injective : Function.Injective (Token.rename r) := by
  intro t u h
  have hname := congrArg Token.isName h
  rw [isName_rename, isName_rename] at hname
  by_cases ht : t.isName
  · have hu : u.isName := hname ▸ ht
    rw [rename_of_isName ht, rename_of_isName hu] at h
    exact r.injective t u ht hu h
  · have ht : t.isName = false := by simpa using ht
    rwa [rename_of_not_isName ht, rename_of_not_isName (hname ▸ ht)] at h

theorem Token.rename_eq_iff (h : u.isName = false) : t.rename r = u ↔ t = u := by
  constructor
  · intro he
    apply rename_injective (r := r)
    rw [he, rename_of_not_isName h]
  · rintro rfl
    exact rename_of_not_isName h

end

/-- Two names change places. -/
def Renaming.swap (x y : String) (hx : Token.isName x) (hy : Token.isName y) : Renaming where
  map z := if z = x then y else if z = y then x else z
  isName := by
    intro z hz
    split
    · exact hy
    split
    · exact hx
    · exact hz
  injective := by
    intro z w _ _ h
    grind

/-! ## Two runs -/

section
variable {ε α β γ δ : Type} {r : Renaming}

def mirrored (r : Renaming) (v : α → β) : EStateM.Result ε Draft α → EStateM.Result ε Draft β
  | .ok a d => .ok (v a) (d.rename r)
  | .error e d => .error e (d.rename r)

/-- From a renamed draft, the second does what the first does, with renamed results. -/
def Mirrors (r : Renaming) (v : α → β) (x : EStateM ε Draft α) (y : EStateM ε Draft β) : Prop :=
  ∀ d : Draft, y.run (d.rename r) = mirrored r v (x.run d)

theorem Mirrors.bind {v : α → β} {w : γ → δ} {x : EStateM ε Draft α} {y : EStateM ε Draft β}
    {f : α → EStateM ε Draft γ} {g : β → EStateM ε Draft δ} (h : Mirrors r v x y)
    (hf : ∀ a, Mirrors r w (f a) (g (v a))) : Mirrors r w (x >>= f) (y >>= g) := by
  intro d
  rw [EStateM.run_bind, EStateM.run_bind, h d]
  cases x.run d with
  | ok a d' => exact hf a d'
  | error e d' => rfl

theorem mirrors_pure (v : α → β) (a : α) : Mirrors r v (pure a : EStateM ε Draft α) (pure (v a)) := by
  intro d
  rfl

theorem mirrors_throw (v : α → β) (e : ε) : Mirrors r v (throw e : EStateM ε Draft α) (throw e) := by
  intro d
  rfl

theorem mirrors_freshTemp : Mirrors r id (freshTemp : EStateM ε Draft Nat) freshTemp := by
  intro d
  rfl

theorem mirrors_fresh (c : Control) : Mirrors r id (c.fresh : EStateM ε Draft Nat) c.fresh := by
  intro d
  cases c <;> rfl

theorem Draft.push_rename (d : Draft) (cs : List Instr) :
    (d.rename r).push (cs.map (Instr.rename r)) = (d.push cs).rename r := by
  simp [push, rename]

theorem mirrors_emit (cs : List Instr) :
    Mirrors r id (emit cs : EStateM ε Draft Unit) (emit (cs.map (Instr.rename r))) := by
  intro d
  rw [emit_run, emit_run, Draft.push_rename]
  rfl

theorem Draft.allocate_rename (d : Draft) (x : String) :
    (d.rename r).allocate (Token.rename r x) = (d.allocate x).rename r := by
  have hmem : Token.rename r x ∈ (d.rename r).vars ↔ x ∈ d.vars :=
    List.mem_map_of_injective Token.rename_injective
  unfold allocate
  by_cases h : x ∈ d.vars
  · rw [if_pos h, if_pos (hmem.mpr h)]
  · rw [if_neg h, if_neg fun h' => h (hmem.mp h')]
    simp [push, rename, Instr.rename, Slot.rename]

theorem mirrors_declare (x : Token) : Mirrors r (Slot.rename r) (declare x) (declare (x.rename r)) := by
  intro d
  unfold declare
  rw [Token.isName_rename]
  by_cases h : x.isName
  · simp only [if_pos h]
    exact congrArg (EStateM.Result.ok _) (d.allocate_rename x)
  · simp only [if_neg h]
    rfl

theorem mirrors_loadVar (x : Token) : Mirrors r id (loadVar x) (loadVar (x.rename r)) := by
  unfold loadVar
  apply (mirrors_declare x).bind
  intro slot
  apply mirrors_freshTemp.bind
  intro dest
  apply (mirrors_emit [.load dest slot]).bind
  intro _
  exact mirrors_pure id _

theorem mirrors_atLine {v : α → β} {x : EStateM Cause Draft α} {y : EStateM Cause Draft β}
    (h : Mirrors r v x y) (n : Nat) : Mirrors r v (atLine n x) (atLine n y) := by
  intro d
  rw [atLine, atLine, EStateM.run_adaptExcept, EStateM.run_adaptExcept, h d]
  cases x.run d <;> rfl

end

/-! ## Postfix form -/

def Value.rename (r : Renaming) : Value → Value
  | .ready v => .ready v
  | .var x => .var (Token.rename r x)

def Term.rename (r : Renaming) : Term → Term
  | .value v => .value (v.rename r)
  | t => t

def Cell.rename (r : Renaming) : Cell → Cell
  | .value v => .value (v.rename r)
  | c => c

section
variable {r : Renaming}

theorem map_rename_of_ops {cells : List Cell} (h : ∀ w, .value w ∉ cells) :
    cells.map (Cell.rename r) = cells := by
  refine (List.map_congr_left ?_).trans (List.map_id _)
  intro c hc
  cases c with
  | value w => exact absurd hc (h w)
  | op a => rfl

theorem toPostfix_rename (stack : List Pending) (terms : List Term) :
    toPostfix stack (terms.map (Term.rename r)) =
      (toPostfix stack terms).map (List.map (Cell.rename r)) := by
  induction terms generalizing stack with
  | nil =>
    show drain stack = (drain stack).map _
    cases hd : drain stack with
    | none => rfl
    | some cells => simp [map_rename_of_ops fun w => drain_values (w := w) hd]
  | cons t terms ih =>
    cases t with
    | value v =>
      simp only [List.map_cons, Term.rename, toPostfix, ih, Option.map_map]
      rfl
    | op a =>
      simp only [List.map_cons, Term.rename, toPostfix, ih, Option.map_map]
      have hrelease : release a.rank stack = ((release a.rank stack).1, (release a.rank stack).2) := rfl
      have hout := map_rename_of_ops (r := r) fun w => release_values (w := w) hrelease
      congr 1
      funext cells
      simp [hout]
    | opening => exact ih (.paren :: stack)
    | closing =>
      simp only [List.map_cons, Term.rename, toPostfix, ih]
      cases hc : closeParen stack with
      | none => rfl
      | some p =>
        have hout := map_rename_of_ops (r := r) fun w => closeParen_values (w := w) hc
        simp only [Option.bind_some, Option.map_map]
        congr 1
        funext cells
        simp [hout]

theorem mirrors_fetch (v : Value) : Mirrors r id v.fetch (v.rename r).fetch := by
  cases v with
  | ready v => exact mirrors_pure id v
  | var x => exact mirrors_loadVar x

theorem mirrors_lowerArith (a : Arith) (lhs rhs : Value) :
    Mirrors r (Value.rename r) (lowerArith a lhs rhs) (lowerArith a (lhs.rename r) (rhs.rename r)) := by
  unfold lowerArith
  apply (mirrors_fetch rhs).bind
  intro right
  apply (mirrors_fetch lhs).bind
  intro left
  show Mirrors r (Value.rename r) _ (if a = .div ∧ right = .literal 0 then _ else _)
  by_cases h : a = .div ∧ right = .literal 0
  · rw [if_pos h, if_pos h]
    exact mirrors_throw _ _
  · rw [if_neg h, if_neg h]
    apply mirrors_freshTemp.bind
    intro dest
    apply (mirrors_emit [.arith dest a left right]).bind
    intro _
    exact mirrors_pure (Value.rename r) _

theorem mirrors_runPostfix (stack : List Value) (cells : List Cell) :
    Mirrors r (Value.rename r) (runPostfix stack cells)
      (runPostfix (stack.map (Value.rename r)) (cells.map (Cell.rename r))) := by
  induction cells generalizing stack with
  | nil =>
    match stack with
    | [] => exact mirrors_throw _ _
    | [v] => exact mirrors_pure (Value.rename r) v
    | _ :: _ :: _ => exact mirrors_throw _ _
  | cons c cells ih =>
    cases c with
    | value v => exact ih (v :: stack)
    | op a =>
      match stack with
      | [] => exact mirrors_throw _ _
      | [_] => exact mirrors_throw _ _
      | right :: left :: stack =>
        apply (mirrors_lowerArith a left right).bind
        intro v
        exact ih (v :: stack)

theorem mirrors_lowerPostfix (terms : List Term) :
    Mirrors r id (lowerPostfix terms) (lowerPostfix (terms.map (Term.rename r))) := by
  unfold lowerPostfix
  rw [toPostfix_rename]
  cases toPostfix [] terms with
  | none => exact mirrors_throw _ _
  | some cells =>
    apply (mirrors_runPostfix [] cells).bind
    intro v
    exact mirrors_fetch v

theorem mirrors_lowerSelect (dest : Nat) (s z p n : Operand) :
    Mirrors r id (lowerSelect (.temp dest) s z p n) (lowerSelect (.temp dest) s z p n) := by
  intro d
  rw [lowerSelect_run, lowerSelect_run]
  apply congrArg (EStateM.Result.ok _)
  simp only [Draft.select, ← Draft.push_rename]
  rfl

end

/-! ## Tokens of an expression -/

/-- A sign with something behind it that makes no number. -/
def Token.Malformed (t : Token) : Prop := t.toList.head? = some '-' ∧ t ≠ "-" ∧ t.number? = none

/-- What may stand in a renamed expression for a token: the renamed token, or for a malformed one any
other. -/
inductive Token.Counterpart (r : Renaming) (t : Token) : Token → Prop
  | renamed : Counterpart r t (t.rename r)
  | malformed {u : Token} : t.Malformed → u.Malformed → Counterpart r t u

/-- The tokens that the lowering of an expression tells from others. -/
def marks : List Token := ["(", ")", ",", "choose", "+", "-", "*", "/"]

section
variable {r : Renaming} {t t' u u' : Token}

theorem Token.Malformed.isNumeric (h : t.Malformed) : t.isNumeric := by
  unfold Token.isNumeric
  obtain ⟨hhead, _, _⟩ := h
  split
  · rename_i hnil
    rw [hnil] at hhead
    cases hhead
  · rename_i c cs hcons
    rw [hcons] at hhead
    cases hhead
    decide

theorem Token.malformed_sign {c : Char} (hc : c ∈ t.toList) (hd : c.isDigit = false) :
    Token.Malformed ("-" ++ t) := by
  refine ⟨by simp, ?_, ?_⟩
  · intro heq
    have hlist := congrArg String.toList heq
    rw [String.toList_append] at hlist
    have hnil : t.toList = [] := List.append_cancel_left hlist
    rw [hnil] at hc
    cases hc
  · rw [Option.eq_none_iff_forall_ne_some]
    intro n hn
    have hall := List.all_eq_true.mp (toList_of_number? hn) c hc
    rw [hd] at hall
    cases hall

theorem Token.malformed_sign_name (h : t.isName) : Token.Malformed ("-" ++ t) := by
  have hnum := not_isNumeric_of_isName h
  unfold isName at h
  unfold isNumeric at hnum
  split at h
  · cases h
  · rename_i c cs ht
    rw [ht] at hnum
    simp only [Bool.or_eq_false_iff] at hnum
    exact malformed_sign (ht ▸ List.mem_cons_self ..) hnum.1

theorem Token.Malformed.sign (h : t.Malformed) : Token.Malformed ("-" ++ t) :=
  malformed_sign (List.mem_of_head? h.1) (by decide)

theorem marks_plain : ∀ s ∈ marks, Token.isName s = false ∧ ¬Token.Malformed s := by
  unfold Token.Malformed
  decide

theorem Token.Counterpart.eq_iff (h : Counterpart r t t') {s : Token} (hs : s ∈ marks) :
    t' = s ↔ t = s := by
  obtain ⟨hname, hmal⟩ := marks_plain s hs
  cases h with
  | renamed => exact rename_eq_iff hname
  | malformed ht hu =>
    constructor
    · rintro rfl
      exact absurd hu hmal
    · rintro rfl
      exact absurd ht hmal

theorem Token.Counterpart.refl (h : t.isName = false) : Counterpart r t t := by
  have hrenamed : Counterpart r t (t.rename r) := .renamed
  rwa [rename_of_not_isName h] at hrenamed

theorem Token.Counterpart.sign (h : Counterpart r t t') : Counterpart r ("-" ++ t) ("-" ++ t') := by
  cases h with
  | malformed ht hu => exact .malformed ht.sign hu.sign
  | renamed =>
    by_cases hn : t.isName
    · exact .malformed (malformed_sign_name hn) (malformed_sign_name (by rw [isName_rename, hn]))
    · rw [rename_of_not_isName (by simpa using hn)]
      exact .refl (isName_minus t)

theorem Token.Counterpart.ofToken?_eq (h : Counterpart r t t') : Arith.ofToken? t' = Arith.ofToken? t := by
  unfold Arith.ofToken?
  simp only [h.eq_iff (s := "+") (by decide), h.eq_iff (s := "-") (by decide),
    h.eq_iff (s := "*") (by decide), h.eq_iff (s := "/") (by decide)]

theorem Token.Counterpart.expectsOperand_eq (h : Counterpart r t t') :
    expectsOperand (some t') = expectsOperand (some t) := by
  unfold expectsOperand Token.isOperator
  simp only [h.ofToken?_eq, h.eq_iff (s := "(") (by decide), h.eq_iff (s := ",") (by decide)]

theorem Token.Malformed.ofToken?_eq (h : t.Malformed) : Arith.ofToken? t = none := by
  rw [Option.eq_none_iff_forall_ne_some]
  intro a ha
  obtain ⟨hhead, hne, _⟩ := h
  rcases Arith.eq_of_ofToken? ha with rfl | rfl | rfl | rfl
  · exact absurd hhead (by decide)
  · exact hne rfl
  · exact absurd hhead (by decide)
  · exact absurd hhead (by decide)

theorem Token.Malformed.ofToken_eq (h : t.Malformed) : Term.ofToken t = .error .number := by
  obtain ⟨ho, hc⟩ := ne_paren_of_isNumeric h.isNumeric
  unfold Term.ofToken
  simp only [h.ofToken?_eq, if_neg ho, if_neg hc, if_pos h.isNumeric, h.2.2]

theorem Term.rename_of_ofToken {term : Term} (hn : t.isName = false) (h : Term.ofToken t = .ok term) :
    term.rename r = term := by
  unfold Term.ofToken at h
  split at h
  · cases h; rfl
  · rw [if_neg (by simp [hn] : ¬t.isName = true)] at h
    repeat' split at h
    all_goals cases h
    all_goals rfl

theorem Token.Counterpart.ofToken_eq (h : Counterpart r t t') :
    Term.ofToken t' = (Term.ofToken t).map (Term.rename r) := by
  cases h with
  | malformed ht hu => rw [ht.ofToken_eq, hu.ofToken_eq]; rfl
  | renamed =>
    by_cases hn : t.isName
    · have hn' : (t.rename r).isName := by rw [isName_rename, hn]
      rw [ofToken_name hn, ofToken_name hn']
      rfl
    · have hn : t.isName = false := by simpa using hn
      rw [rename_of_not_isName hn]
      cases ht : Term.ofToken t with
      | error c => rfl
      | ok term => rw [Except.map, Term.rename_of_ofToken hn ht]

theorem mirrors_lowerSingle (h : t.Counterpart r t') : Mirrors r id (lowerSingle t) (lowerSingle t') := by
  unfold lowerSingle
  cases h with
  | malformed ht hu =>
    simp only [if_pos ht.isNumeric, if_pos hu.isNumeric, ht.2.2, hu.2.2]
    exact mirrors_throw _ _
  | renamed =>
    by_cases hn : t.isName
    · have hn' : (t.rename r).isName := by rw [Token.isName_rename, hn]
      rw [Token.not_isNumeric_of_isName hn, Token.not_isNumeric_of_isName hn']
      exact mirrors_loadVar t
    · have hsame : t.rename r = t := Token.rename_of_not_isName (by simpa using hn)
      have hload := mirrors_loadVar (r := r) t
      rw [hsame] at hload ⊢
      by_cases hnum : t.isNumeric
      · simp only [if_pos hnum]
        cases t.number? with
        | none => exact mirrors_throw _ _
        | some n => exact mirrors_pure id _
      · simpa only [if_neg hnum] using hload

end

theorem rel_map {α β γ δ : Type} {R : α → β → Prop} {S : γ → δ → Prop} {f : α → γ} {g : β → δ}
    {a : Option α} {b : Option β} (h : Option.Rel R a b) (hfg : ∀ x y, R x y → S (f x) (g y)) :
    Option.Rel S (a.map f) (b.map g) := by
  cases h with
  | some h => exact .some (hfg _ _ h)
  | none => exact .none

abbrev Counterparts (r : Renaming) : List Token → List Token → Prop := List.Forall₂ (Token.Counterpart r)

section
variable {r : Renaming} {ts ts' : List Token}

theorem Counterparts.joinSigns (h : Counterparts r ts ts') {p p' : Option Token}
    (hp : expectsOperand p' = expectsOperand p) :
    Option.Rel (Counterparts r) (SlotCompiler.joinSigns p ts) (SlotCompiler.joinSigns p' ts') := by
  have hsigned : ∀ {t t' : Token} {q q' : Option Token}, t.Counterpart r t' →
      expectsOperand q' = expectsOperand q →
      (t' = "-" ∧ expectsOperand q' = true ↔ t = "-" ∧ expectsOperand q = true) := by
    intro t t' q q' ht hq
    rw [ht.eq_iff (by decide), hq]
  fun_induction SlotCompiler.joinSigns p ts generalizing p' ts' with
  | case1 p =>
    cases h
    exact .some .nil
  | case2 p t hs =>
    obtain ⟨t', _, ht, hnil, rfl⟩ := List.forall₂_cons_left_iff.mp h
    cases hnil
    rw [SlotCompiler.joinSigns, if_pos ((hsigned ht hp).mpr hs)]
    exact .none
  | case3 p t hs =>
    obtain ⟨t', _, ht, hnil, rfl⟩ := List.forall₂_cons_left_iff.mp h
    cases hnil
    rw [SlotCompiler.joinSigns, if_neg fun hs' => hs ((hsigned ht hp).mp hs')]
    exact .some (.cons ht .nil)
  | case4 p t u ts hs ih =>
    obtain ⟨t', _, ht, htail, rfl⟩ := List.forall₂_cons_left_iff.mp h
    obtain ⟨u', ts', hu, hts, rfl⟩ := List.forall₂_cons_left_iff.mp htail
    rw [SlotCompiler.joinSigns, if_pos ((hsigned ht hp).mpr hs)]
    apply rel_map (ih hts hu.sign.expectsOperand_eq)
    intro js js' hjs
    exact .cons hu.sign hjs
  | case5 p t u ts hs ih =>
    obtain ⟨t', _, ht, htail, rfl⟩ := List.forall₂_cons_left_iff.mp h
    obtain ⟨u', ts', hu, hts, rfl⟩ := List.forall₂_cons_left_iff.mp htail
    rw [SlotCompiler.joinSigns, if_neg fun hs' => hs ((hsigned ht hp).mp hs')]
    apply rel_map (ih htail ht.expectsOperand_eq)
    intro js js' hjs
    exact .cons ht hjs

theorem Counterparts.joined {t u : Token} (h : Counterparts r (t :: u :: ts) ts') :
    ∃ t' u' us, ts' = t' :: u' :: us ∧ Option.Rel (Counterparts r)
      (SlotCompiler.joinSigns none (t :: u :: ts)) (SlotCompiler.joinSigns none (t' :: u' :: us)) := by
  obtain ⟨t', _, _, htail, rfl⟩ := List.forall₂_cons_left_iff.mp h
  obtain ⟨u', us, _, _, rfl⟩ := List.forall₂_cons_left_iff.mp htail
  exact ⟨t', u', us, rfl, h.joinSigns rfl⟩

theorem Counterparts.hasEmptyGroup (h : Counterparts r ts ts') :
    SlotCompiler.hasEmptyGroup ts' = SlotCompiler.hasEmptyGroup ts := by
  induction h with
  | nil => rfl
  | cons ht hts ih =>
    rw [SlotCompiler.hasEmptyGroup, SlotCompiler.hasEmptyGroup, ih]
    simp only [ht.eq_iff (s := "(") (by decide)]
    cases hts with
    | nil => rfl
    | cons hu _ => simp only [List.head?_cons, Option.all_some, hu.eq_iff (s := ")") (by decide)]

theorem Counterparts.closeGroup (h : Counterparts r ts ts') (depth : Nat) :
    Option.Rel (fun p q => Counterparts r p.1 q.1 ∧ Counterparts r p.2 q.2)
      (SlotCompiler.closeGroup depth ts) (SlotCompiler.closeGroup depth ts') := by
  induction h generalizing depth with
  | nil => exact .none
  | @cons t t' ts ts' ht hts ih =>
    have hcons : ∀ d, Option.Rel (fun p q => Counterparts r p.1 q.1 ∧ Counterparts r p.2 q.2)
        ((SlotCompiler.closeGroup d ts).map fun p => (t :: p.1, p.2))
        ((SlotCompiler.closeGroup d ts').map fun p => (t' :: p.1, p.2)) := by
      intro d
      apply rel_map (ih d)
      intro p q hpq
      exact ⟨.cons ht hpq.1, hpq.2⟩
    unfold SlotCompiler.closeGroup
    simp only [ht.eq_iff (s := ")") (by decide), ht.eq_iff (s := "(") (by decide)]
    by_cases hc : t = ")"
    · simp only [if_pos hc]
      cases depth with
      | zero => exact .some ⟨.nil, hts⟩
      | succ d => exact hcons d
    · simp only [if_neg hc]
      exact hcons _

theorem Counterparts.group? (h : Counterparts r ts ts') :
    Option.Rel (fun p q => Counterparts r p.1 q.1 ∧ Counterparts r p.2 q.2)
      (SlotCompiler.group? ts) (SlotCompiler.group? ts') := by
  cases h with
  | nil => exact .none
  | @cons t t' ts ts' ht hts =>
    unfold SlotCompiler.group?
    simp only [ht.eq_iff (s := "(") (by decide)]
    by_cases ho : t = "("
    · simp only [if_pos ho]
      exact Counterparts.closeGroup hts 0
    · simp only [if_neg ho]
      exact .none

theorem Counterparts.splitArguments (h : Counterparts r ts ts') (depth : Nat) :
    Counterparts r (SlotCompiler.splitArguments depth ts).1 (SlotCompiler.splitArguments depth ts').1 ∧
      List.Forall₂ (Counterparts r) (SlotCompiler.splitArguments depth ts).2
        (SlotCompiler.splitArguments depth ts').2 := by
  induction h generalizing depth with
  | nil => exact ⟨.nil, .nil⟩
  | @cons t t' ts ts' ht hts ih =>
    unfold SlotCompiler.splitArguments
    simp only [ht.eq_iff (s := ")") (by decide), ht.eq_iff (s := "(") (by decide),
      ht.eq_iff (s := ",") (by decide)]
    by_cases hc : t = "," ∧ depth = 0
    · simp only [if_pos hc]
      exact ⟨.nil, .cons (ih 0).1 (ih 0).2⟩
    · simp only [if_neg hc]
      exact ⟨.cons ht (ih _).1, (ih _).2⟩

theorem Counterparts.arguments (h : Counterparts r ts ts') :
    List.Forall₂ (Counterparts r) (SlotCompiler.arguments ts) (SlotCompiler.arguments ts') :=
  .cons (h.splitArguments 0).1 (h.splitArguments 0).2

theorem counterparts_map (r : Renaming) (ts : List Token) : Counterparts r ts (ts.map (Token.rename r)) := by
  induction ts with
  | nil => exact .nil
  | cons t ts ih => exact .cons .renamed ih

end

/-! ## Expressions -/

theorem mirrors_lower {r : Renaming} :
    (∀ ts, ∀ {ts'}, Counterparts r ts ts' → Mirrors r id (lowerExpr ts) (lowerExpr ts')) ∧
    (∀ ts, ∀ {ts'}, Counterparts r ts ts' →
      Mirrors r (List.map (Term.rename r)) (lowerTerms ts) (lowerTerms ts')) ∧
    (∀ ts, ∀ {ts'}, Counterparts r ts ts' → Mirrors r id (lowerChoose ts) (lowerChoose ts')) := by
  refine lowerExpr.mutual_induct _ _ _ ?_ ?_ ?_ ?_ ?_ ?_ ?_ ?_ ?_ ?_ ?_
  · intro ts' h
    cases h
    rw [lowerExpr_nil]
    exact mirrors_throw _ _
  · intro t ts' h
    obtain ⟨t', _, ht, hnil, rfl⟩ := List.forall₂_cons_left_iff.mp h
    cases hnil
    rw [lowerExpr_singleton, lowerExpr_singleton]
    exact mirrors_lowerSingle ht
  · intro t u ts hj ts' h
    obtain ⟨t', u', us, rfl, hjoin⟩ := h.joined
    generalize hj' : joinSigns none (t' :: u' :: us) = joined' at hjoin
    rw [hj] at hjoin
    cases hjoin
    rw [lowerExpr_cons_cons, lowerExpr_cons_cons, hj, hj']
    exact mirrors_throw _ _
  · intro t u ts joined hj he ts' h
    obtain ⟨t', u', us, rfl, hjoin⟩ := h.joined
    generalize hj' : joinSigns none (t' :: u' :: us) = joined' at hjoin
    rw [hj] at hjoin
    cases hjoin with | some hjoined =>
    simp only [lowerExpr_cons_cons, hj, hj', hjoined.hasEmptyGroup, he]
    exact mirrors_throw _ _
  · intro t u ts joined hj he ih ts' h
    obtain ⟨t', u', us, rfl, hjoin⟩ := h.joined
    generalize hj' : joinSigns none (t' :: u' :: us) = joined' at hjoin
    rw [hj] at hjoin
    cases hjoin with | some hjoined =>
    simp only [lowerExpr_cons_cons, hj, hj', hjoined.hasEmptyGroup, he]
    apply (ih hjoined).bind
    intro terms
    exact mirrors_lowerPostfix terms
  · intro ts' h
    cases h
    rw [lowerTerms_nil]
    exact mirrors_pure (List.map (Term.rename r)) []
  · intro ts hg ts' h
    obtain ⟨t', ts', ht, hts, rfl⟩ := List.forall₂_cons_left_iff.mp h
    have hgroup := Counterparts.group? hts
    generalize hg' : group? ts' = p at hgroup
    rw [hg] at hgroup
    cases hgroup
    simp only [lowerTerms_cons, hg, hg', ht.eq_iff (s := "choose") (by decide)]
    exact mirrors_throw _ _
  · intro ts inner rest hg ihc iht ts' h
    obtain ⟨t', ts', ht, hts, rfl⟩ := List.forall₂_cons_left_iff.mp h
    have hgroup := Counterparts.group? hts
    generalize hg' : group? ts' = p at hgroup
    rw [hg] at hgroup
    cases hgroup with | some hparts =>
    simp only [lowerTerms_cons, hg, hg', ht.eq_iff (s := "choose") (by decide)]
    apply (ihc hparts.1).bind
    intro v
    apply (iht hparts.2).bind
    intro terms
    exact mirrors_pure (List.map (Term.rename r)) _
  · intro t ts hc c ht ts' h
    obtain ⟨t', ts', htt, hts, rfl⟩ := List.forall₂_cons_left_iff.mp h
    have hterm := htt.ofToken_eq
    rw [ht] at hterm
    simp only [lowerTerms_cons, ht, hterm, htt.eq_iff (s := "choose") (by decide), hc]
    exact mirrors_throw _ _
  · intro t ts hc term ht ih ts' h
    obtain ⟨t', ts', htt, hts, rfl⟩ := List.forall₂_cons_left_iff.mp h
    have hterm := htt.ofToken_eq
    rw [ht] at hterm
    simp only [lowerTerms_cons, ht, hterm, htt.eq_iff (s := "choose") (by decide), hc]
    apply (ih hts).bind
    intro terms
    exact mirrors_pure (List.map (Term.rename r)) _
  · intro ts ih₁ ih₂ ih₃ ih₄ ts' h
    rw [lowerChoose_eq, lowerChoose_eq]
    apply mirrors_freshTemp.bind
    intro dest
    have hargs := h.arguments
    generalize arguments ts' = args' at hargs
    split
    · rename_i s z p n ha
      rw [ha] at hargs
      obtain _ | ⟨hs, hargs⟩ := hargs
      obtain _ | ⟨hz, hargs⟩ := hargs
      obtain _ | ⟨hp, hargs⟩ := hargs
      obtain _ | ⟨hn, hargs⟩ := hargs
      cases hargs
      apply (ih₁ s z p n ha hs).bind
      intro sv
      apply (ih₂ s z p n ha hz).bind
      intro zv
      apply (ih₃ s z p n ha hp).bind
      intro pv
      apply (ih₄ s z p n ha hn).bind
      intro nv
      exact mirrors_lowerSelect dest sv zv pv nv
    · rename_i hne
      split
      · rename_i s' z' p' n'
        generalize ha : arguments ts = args at hargs hne
        obtain _ | ⟨_, hargs⟩ := hargs
        obtain _ | ⟨_, hargs⟩ := hargs
        obtain _ | ⟨_, hargs⟩ := hargs
        obtain _ | ⟨_, hargs⟩ := hargs
        cases hargs
        exact (hne _ _ _ _ rfl).elim
      · exact mirrors_throw _ _

/-! ## Statements -/

def Form.rename (r : Renaming) : Form → Form
  | .blank => .blank
  | .print expr => .print (expr.map (Token.rename r))
  | .assign x expr => .assign (x.rename r) (expr.map (Token.rename r))
  | .control c tokens => .control c (tokens.map (Token.rename r))

section
variable {r : Renaming}

theorem count_map_rename (ts : List Token) {t : Token} (h : t.isName = false) :
    (ts.map (Token.rename r)).count t = ts.count t := by
  have hcount := List.count_map_of_injective ts (Token.rename r) Token.rename_injective t
  rwa [Token.rename_of_not_isName h] at hcount

theorem Form.ofTokens_rename (ts : List Token) :
    ofTokens (ts.map (Token.rename r)) = (ofTokens ts).map (Form.rename r) := by
  match ts with
  | [] => rfl
  | [_] => rfl
  | [_, _] => rfl
  | first :: second :: third :: more =>
    have ho := count_map_rename (r := r) (first :: second :: third :: more) (t := "(") (by decide)
    have hc := count_map_rename (r := r) (first :: second :: third :: more) (t := ")") (by decide)
    have hlast : (Token.rename r third :: more.map (Token.rename r)).getLast? = some ")" ↔
        (third :: more).getLast? = some ")" := by
      rw [← List.map_cons, List.getLast?_map]
      cases (third :: more).getLast? with
      | none => simp
      | some t => simpa using Token.rename_eq_iff (by decide)
    have hinit : (Token.rename r third :: more.map (Token.rename r)).dropLast =
        (third :: more).dropLast.map (Token.rename r) := by
      rw [← List.map_cons, List.map_dropLast]
    simp only [List.map_cons] at ho hc ⊢
    simp only [ofTokens, ho, hc, hlast, hinit, Token.rename_eq_iff (r := r) (u := "print") (by decide),
      Token.rename_eq_iff (r := r) (u := "if") (by decide),
      Token.rename_eq_iff (r := r) (u := "while") (by decide),
      Token.rename_eq_iff (r := r) (u := "=") (by decide),
      Token.rename_eq_iff (r := r) (u := "(") (by decide)]
    repeat' split
    all_goals rfl

theorem unseen_rename : Unseen (Token.rename r) := by
  intro t ht u
  have hname : ∀ s ∈ scanned, Token.isName s = false := by decide
  exact Token.rename_eq_iff (hname t ht)

theorem Line.rename_eq_map : Line.rename r = Line.map id (Token.rename r) := rfl

theorem mirrors_lowerPrint (expr : List Token) :
    Mirrors r id (lowerPrint expr) (lowerPrint (expr.map (Token.rename r))) := by
  unfold lowerPrint
  apply (mirrors_lower.1 expr (counterparts_map r expr)).bind
  intro v
  exact mirrors_emit [.print v]

theorem mirrors_lowerAssign (x : Token) (expr : List Token) :
    Mirrors r id (lowerAssign x expr) (lowerAssign (x.rename r) (expr.map (Token.rename r))) := by
  unfold lowerAssign
  apply (mirrors_declare x).bind
  intro slot
  apply (mirrors_lower.1 expr (counterparts_map r expr)).bind
  intro v
  exact mirrors_emit [.store v slot]

theorem mirrors_lowerTest (cond : List Token) (body exit : Label) :
    Mirrors r id (lowerTest cond body exit) (lowerTest (cond.map (Token.rename r)) body exit) := by
  unfold lowerTest
  apply (mirrors_lower.1 cond (counterparts_map r cond)).bind
  intro v
  apply mirrors_freshTemp.bind
  intro dest
  exact mirrors_emit [.test dest .nonzero v, .branch dest body exit, .label body]

theorem mirrors_enter (c : Control) (id' : Nat) :
    Mirrors r id (emit (c.enter id') : EStateM SyntaxError Draft Unit) (emit (c.enter id')) := by
  cases c with
  | branch => exact mirrors_emit []
  | loop => exact mirrors_emit [.jump (.whileTest id'), .label (.whileTest id')]

theorem closeGroup_map_rename (depth : Nat) (ts : List Token) : closeGroup depth (ts.map (Token.rename r)) =
    (closeGroup depth ts).map fun p => (p.1.map (Token.rename r), p.2.map (Token.rename r)) := by
  induction ts generalizing depth with
  | nil => rfl
  | cons t ts ih =>
    rw [List.map_cons]
    unfold closeGroup
    simp only [Token.rename_eq_iff (r := r) (u := ")") (by decide),
      Token.rename_eq_iff (r := r) (u := "(") (by decide), ih]
    by_cases hc : t = ")"
    · simp only [if_pos hc]
      cases depth with
      | zero => rfl
      | succ d => simp only [Option.map_map]; rfl
    · simp only [if_neg hc, Option.map_map]
      rfl

theorem group?_map_rename (ts : List Token) : group? (ts.map (Token.rename r)) =
    (group? ts).map fun p => (p.1.map (Token.rename r), p.2.map (Token.rename r)) := by
  cases ts with
  | nil => rfl
  | cons t ts =>
    rw [List.map_cons, group?, group?]
    simp only [Token.rename_eq_iff (r := r) (u := "(") (by decide)]
    by_cases ho : t = "("
    · rw [if_pos ho, if_pos ho, closeGroup_map_rename]
    · rw [if_neg ho, if_neg ho]
      rfl

theorem cut_rename (line : Line) (following : List Line) :
    Block.cut (line.rename r) (following.map (Line.rename r)) =
      Block.mapResult id (Token.rename r) (Block.cut line following) :=
  Block.cut_map id unseen_rename line following

theorem mirrors_lowerLines (lines : List Line) :
    Mirrors r id (lowerLines lines) (lowerLines (lines.map (Line.rename r))) := by
  have hform : ∀ {line : Line} {form : Except Cause Form}, Form.ofTokens line.tokens = form →
      Form.ofTokens (line.rename r).tokens = form.map (Form.rename r) := by
    intro line form hf
    rw [← hf]
    exact Form.ofTokens_rename line.tokens
  induction lines using lowerLines.induct with
  | case1 =>
    rw [List.map_nil, lowerLines_nil]
    exact mirrors_pure id ()
  | case2 line following c hf =>
    simp only [List.map_cons, lowerLines_cons, hf, hform hf, Except.map]
    exact mirrors_throw _ _
  | case3 line following hf ih =>
    simp only [List.map_cons, lowerLines_cons, hf, hform hf, Except.map, Form.rename]
    exact ih
  | case4 line following expr hf ih =>
    simp only [List.map_cons, lowerLines_cons, hf, hform hf, Except.map, Form.rename]
    apply (mirrors_atLine (mirrors_lowerPrint expr) line.number).bind
    intro _
    exact ih
  | case5 line following x expr hf ih =>
    simp only [List.map_cons, lowerLines_cons, hf, hform hf, Except.map, Form.rename]
    apply (mirrors_atLine (mirrors_lowerAssign x expr) line.number).bind
    intro _
    exact ih
  | case6 line following c tokens hf ihb ihr =>
    simp only [List.map_cons, lowerLines_cons, hf, hform hf, Except.map, Form.rename, group?_map_rename]
    apply (mirrors_fresh c).bind
    intro id'
    apply (mirrors_enter c id').bind
    intro _
    cases hg : group? tokens with
    | none => exact mirrors_throw _ _
    | some p =>
      obtain ⟨cond, rest⟩ := p
      apply (mirrors_atLine (mirrors_lowerTest cond (c.body id') (c.exit id')) line.number).bind
      intro _
      have hcut := cut_rename (r := r) ⟨line.number, rest⟩ following
      simp only [Line.rename] at hcut ⊢
      cases hb : Block.cut ⟨line.number, rest⟩ following with
      | error e =>
        rw [hb] at hcut
        simp only [hcut, Block.mapResult]
        exact mirrors_throw _ _
      | ok block =>
        rw [hb] at hcut
        simp only [hcut, Block.mapResult, Block.body_map, Block.remaining_map, ← Line.rename_eq_map]
        apply (ihb cond rest hg block hb).bind
        intro _
        apply (mirrors_emit [.jump (c.back id'), .label (c.exit id')]).bind
        intro _
        exact ihr cond rest hg block hb

end

theorem foldl_allocate_rename (r : Renaming) (xs : List String) (d : Draft) :
    (xs.map (Token.rename r)).foldl Draft.allocate (d.rename r) =
      (xs.foldl Draft.allocate d).rename r := by
  induction xs generalizing d with
  | nil => rfl
  | cons x xs ih => rw [List.map_cons, List.foldl_cons, Draft.allocate_rename, ih, List.foldl_cons]

theorem hoist_rename (r : Renaming) (d : Draft) (lines : List Line) :
    (d.rename r).hoist (lines.map (Line.rename r)) = (d.hoist lines).rename r := by
  have htokens : (lines.map (Line.rename r)).flatMap Line.tokens =
      (lines.flatMap Line.tokens).map (Token.rename r) := by
    rw [List.flatMap_map, List.map_flatMap]
    rfl
  have hnames : (fun t => Token.isName t) ∘ Token.rename r = fun t => Token.isName t := by
    funext t
    exact Token.isName_rename
  unfold Draft.hoist
  rw [htokens, List.filter_map, ← foldl_allocate_rename, hnames]

/-- Renamed lines are lowered to the renamed code, or fail for the same cause on the same line. -/
theorem lowerLines_rename (r : Renaming) (lines : List Line) :
    (lowerLines (lines.map (Line.rename r))).run (Draft.hoist {} (lines.map (Line.rename r))) =
      match (lowerLines lines).run (Draft.hoist {} lines) with
      | .ok _ d => .ok () (d.rename r)
      | .error e d => .error e (d.rename r) := by
  have hhoist : Draft.hoist {} (lines.map (Line.rename r)) = (Draft.hoist {} lines).rename r :=
    hoist_rename r {} lines
  rw [hhoist, mirrors_lowerLines lines]
  cases (lowerLines lines).run (Draft.hoist {} lines) <;> rfl

theorem lowerLines_rename_choose00 :
    let r := Renaming.swap "n" "choose00" (by decide) (by decide)
    let lines : List Line := [⟨1, ["n", "=", "4"]⟩, ⟨2, ["print", "(", "n", "+", "t1", ")"]⟩]
    (lowerLines (lines.map (Line.rename r))).run (Draft.hoist {} (lines.map (Line.rename r))) =
      .ok () ⟨3, 0, 0, 0, ["choose00", "t1"],
        [.alloca (.var "choose00"), .store (.literal 0) (.var "choose00"),
         .alloca (.var "t1"), .store (.literal 0) (.var "t1"), .store (.literal 4) (.var "choose00"),
         .load 1 (.var "t1"), .load 2 (.var "choose00"), .arith 3 .add (.temp 2) (.temp 1),
         .print (.temp 3)]⟩ := by
  intro r lines
  have hlines : (lowerLines lines).run (Draft.hoist {} lines) =
      .ok () ⟨3, 0, 0, 0, ["n", "t1"],
        [.alloca (.var "n"), .store (.literal 0) (.var "n"), .alloca (.var "t1"),
         .store (.literal 0) (.var "t1"), .store (.literal 4) (.var "n"), .load 1 (.var "t1"),
         .load 2 (.var "n"), .arith 3 .add (.temp 2) (.temp 1), .print (.temp 3)]⟩ := by cbv
  rw [lowerLines_rename, hlines]
  apply congrArg (EStateM.Result.ok ())
  decide +kernel

end SlotCompiler
