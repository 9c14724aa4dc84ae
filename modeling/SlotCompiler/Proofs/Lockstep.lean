import SlotCompiler.Proofs.Growth

/-!
# Acceptance does not depend on the draft

Two runs of the lowering from different drafts hand out different temporaries, but they take the same
turns: a value is a literal in one just if it is the same literal in the other. So what is accepted
from one draft is accepted from every draft, `lowerExpr_accepted` and `lowerLines_accepted`.
-/

namespace SlotCompiler

/-- Where the first succeeds from some draft, the second succeeds from every draft, and the results
are related. -/
structure Lockstep {ε α β : Type} (R : α → β → Prop) (x : EStateM ε Draft α)
    (y : EStateM ε Draft β) : Prop where
  follow : ∀ {d d' : Draft} {a : α}, x.run d = .ok a d' → ∀ e, ∃ b e', y.run e = .ok b e' ∧ R a b

section
variable {ε α β γ δ : Type} {R : α → β → Prop} {S : γ → δ → Prop}

theorem Lockstep.bind {x : EStateM ε Draft α} {y : EStateM ε Draft β} {f : α → EStateM ε Draft γ}
    {g : β → EStateM ε Draft δ} (h : Lockstep R x y) (hf : ∀ a b, R a b → Lockstep S (f a) (g b)) :
    Lockstep S (x >>= f) (y >>= g) := by
  refine ⟨fun hr e => ?_⟩
  obtain ⟨a, d₁, hx, hr⟩ := run_bind_ok hr
  obtain ⟨b, e₁, hy, hab⟩ := h.follow hx e
  obtain ⟨c', e', hg, hs⟩ := (hf a b hab).follow hr e₁
  exact ⟨c', e', by rw [run_bind_of_ok hy, hg], hs⟩

theorem lockstep_pure {a : α} {b : β} (h : R a b) :
    Lockstep R (pure a : EStateM ε Draft α) (pure b) := by
  refine ⟨fun hr e => ?_⟩
  cases hr
  exact ⟨b, e, rfl, h⟩

theorem lockstep_throw (c : ε) (y : EStateM ε Draft β) : Lockstep R (throw c) y :=
  ⟨fun hr => by cases hr⟩

theorem lockstep_emit (cs ds : List Instr) :
    Lockstep (fun _ _ => True) (emit cs : EStateM ε Draft Unit) (emit ds) :=
  ⟨fun _ _ => ⟨_, _, rfl, trivial⟩⟩

theorem lockstep_freshTemp : Lockstep (fun _ _ => True) (freshTemp : EStateM ε Draft Nat) freshTemp :=
  ⟨fun _ _ => ⟨_, _, rfl, trivial⟩⟩

theorem lockstep_atLine {n : Nat} {x : EStateM Cause Draft α} {y : EStateM Cause Draft β}
    (h : Lockstep R x y) : Lockstep R (atLine n x) (atLine n y) := by
  refine ⟨fun hr e => ?_⟩
  obtain ⟨b, e', hy, hab⟩ := h.follow (run_atLine_ok hr) e
  exact ⟨b, e', by rw [atLine, EStateM.run_adaptExcept, hy], hab⟩

end

/-! ## Expressions -/

inductive Operand.Alike : Operand → Operand → Prop
  | literal (n : Int32) : Alike (.literal n) (.literal n)
  | temp (s t : Nat) : Alike (.temp s) (.temp t)

inductive Value.Alike : Value → Value → Prop
  | ready {v w : Operand} : v.Alike w → Alike (.ready v) (.ready w)
  | var (x : String) : Alike (.var x) (.var x)

inductive Term.Alike : Term → Term → Prop
  | value {v w : Value} : v.Alike w → Alike (.value v) (.value w)
  | op (a : Arith) : Alike (.op a) (.op a)
  | opening : Alike .opening .opening
  | closing : Alike .closing .closing

inductive Cell.Alike : Cell → Cell → Prop
  | value {v w : Value} : v.Alike w → Alike (.value v) (.value w)
  | op (a : Arith) : Alike (.op a) (.op a)

theorem Value.Alike.refl (v : Value) : v.Alike v := by
  cases v with
  | ready v => cases v <;> exact .ready (by constructor)
  | var x => exact .var x

theorem Term.Alike.refl (t : Term) : t.Alike t := by
  cases t with
  | value v => exact .value (.refl v)
  | op a => exact .op a
  | opening => exact .opening
  | closing => exact .closing

theorem Cell.alike_refl (cells : List Cell) : cells.Forall₂ Cell.Alike cells := by
  refine List.forall₂_same.mpr fun c _ => ?_
  cases c with
  | value v => exact .value (.refl v)
  | op a => exact .op a

theorem lockstep_loadVar (x : Token) : Lockstep Operand.Alike (loadVar x) (loadVar x) := by
  unfold loadVar declare
  split
  · refine ⟨fun hr _ => ?_⟩
    cases hr
    exact ⟨_, _, rfl, .temp ..⟩
  · exact lockstep_throw ..

theorem Value.Alike.fetch {v w : Value} (h : v.Alike w) : Lockstep Operand.Alike v.fetch w.fetch := by
  cases h with
  | ready h => exact lockstep_pure h
  | var x => exact lockstep_loadVar x

theorem lockstep_lowerArith (a : Arith) {l l' r r' : Value} (hl : l.Alike l') (hr : r.Alike r') :
    Lockstep Value.Alike (lowerArith a l r) (lowerArith a l' r') := by
  refine hr.fetch.bind fun rhs rhs' hrhs => hl.fetch.bind fun lhs lhs' _ => ?_
  have hzero : rhs = .literal 0 ↔ rhs' = .literal 0 := by cases hrhs <;> simp
  by_cases h : a = .div ∧ rhs = .literal 0
  · rw [if_pos h]; exact lockstep_throw ..
  · rw [if_neg h, if_neg fun h' => h ⟨h'.1, hzero.mpr h'.2⟩]
    refine ⟨fun hv _ => ?_⟩
    cases hv
    exact ⟨_, _, rfl, .ready (.temp ..)⟩

theorem lockstep_runPostfix {cells cells' : List Cell} (hc : cells.Forall₂ Cell.Alike cells')
    {stack stack' : List Value} (hs : stack.Forall₂ Value.Alike stack') :
    Lockstep Value.Alike (runPostfix stack cells) (runPostfix stack' cells') := by
  induction hc generalizing stack stack' with
  | nil =>
    match hs with
    | .nil => exact lockstep_throw ..
    | .cons h .nil => exact lockstep_pure h
    | .cons _ (.cons _ _) => exact lockstep_throw ..
  | cons h _ ih =>
    cases h with
    | value h => exact ih (.cons h hs)
    | op a =>
      match hs with
      | .nil => exact lockstep_throw ..
      | .cons _ .nil => exact lockstep_throw ..
      | .cons hr (.cons hl hs) => exact (lockstep_lowerArith a hl hr).bind fun _ _ hv => ih (.cons hv hs)

theorem toPostfix_alike {terms terms' : List Term} (ht : terms.Forall₂ Term.Alike terms')
    {stack : List Pending} {cells : List Cell} (h : toPostfix stack terms = some cells) :
    ∃ cells', toPostfix stack terms' = some cells' ∧ cells.Forall₂ Cell.Alike cells' := by
  induction ht generalizing stack cells with
  | nil => exact ⟨cells, h, Cell.alike_refl _⟩
  | cons hterm _ ih =>
    cases hterm with
    | value hv =>
      obtain ⟨out, ho, rfl⟩ := Option.map_eq_some_iff.mp h
      obtain ⟨out', ho', ha⟩ := ih ho
      exact ⟨_, by rw [toPostfix, ho']; rfl, .cons (.value hv) ha⟩
    | op a =>
      obtain ⟨out, ho, rfl⟩ := Option.map_eq_some_iff.mp h
      obtain ⟨out', ho', ha⟩ := ih ho
      exact ⟨_, by simp only [toPostfix, ho']; rfl, List.rel_append (Cell.alike_refl _) ha⟩
    | opening => exact ih h
    | closing =>
      obtain ⟨⟨out, left⟩, hc, h⟩ := Option.bind_eq_some_iff.mp h
      obtain ⟨more, ho, rfl⟩ := Option.map_eq_some_iff.mp h
      obtain ⟨more', ho', ha⟩ := ih ho
      exact ⟨out ++ more', by simp [toPostfix, hc, ho'], List.rel_append (Cell.alike_refl _) ha⟩

theorem lockstep_lowerPostfix {terms terms' : List Term} (ht : terms.Forall₂ Term.Alike terms') :
    Lockstep Operand.Alike (lowerPostfix terms) (lowerPostfix terms') := by
  unfold lowerPostfix
  split
  · exact lockstep_throw ..
  · rename_i cells hc
    obtain ⟨cells', hc', ha⟩ := toPostfix_alike ht hc
    rw [hc']
    exact (lockstep_runPostfix ha .nil).bind fun _ _ hv => hv.fetch

theorem lockstep_lowerSingle (t : Token) : Lockstep Operand.Alike (lowerSingle t) (lowerSingle t) := by
  unfold lowerSingle
  split
  · split
    · exact lockstep_pure (.literal _)
    · exact lockstep_throw ..
  · exact lockstep_loadVar t

theorem lockstep_lower :
    (∀ ts, Lockstep Operand.Alike (lowerExpr ts) (lowerExpr ts)) ∧
    (∀ ts, Lockstep (List.Forall₂ Term.Alike) (lowerTerms ts) (lowerTerms ts)) ∧
    (∀ ts, Lockstep Operand.Alike (lowerChoose ts) (lowerChoose ts)) := by
  refine lowerExpr.mutual_induct _ _ _ ?_ ?_ ?_ ?_ ?_ ?_ ?_ ?_ ?_ ?_ ?_
  · rw [lowerExpr_nil]; exact lockstep_throw ..
  · intro t
    rw [lowerExpr_singleton]; exact lockstep_lowerSingle t
  · intro t u ts hj
    simp only [lowerExpr_cons_cons, hj]; exact lockstep_throw ..
  · intro t u ts joined hj he
    simp only [lowerExpr_cons_cons, hj, he]; exact lockstep_throw ..
  · intro t u ts joined hj he ih
    simp only [lowerExpr_cons_cons, hj, he]
    exact ih.bind fun _ _ ht => lockstep_lowerPostfix ht
  · rw [lowerTerms_nil]; exact lockstep_pure .nil
  · intro ts hg
    simp only [lowerTerms_cons, hg]; exact lockstep_throw ..
  · intro ts inner rest hg ihc iht
    simp only [lowerTerms_cons, hg]
    exact ihc.bind fun _ _ hv => iht.bind fun _ _ ht => lockstep_pure (.cons (.value (.ready hv)) ht)
  · intro t ts hc c ht
    simp only [lowerTerms_cons, hc, ht]; exact lockstep_throw ..
  · intro t ts hc term ht ih
    simp only [lowerTerms_cons, hc, ht]
    exact ih.bind fun _ _ hts => lockstep_pure (.cons (.refl term) hts)
  · intro ts ih₁ ih₂ ih₃ ih₄
    rw [lowerChoose_eq]
    refine lockstep_freshTemp.bind fun dest dest' _ => ?_
    split
    · rename_i s z p n ha
      refine (ih₁ s z p n ha).bind fun _ _ _ => (ih₂ s z p n ha).bind fun _ _ _ => ?_
      refine (ih₃ s z p n ha).bind fun _ _ _ => (ih₄ s z p n ha).bind fun _ _ _ => ?_
      refine ⟨fun hr e => ?_⟩
      rw [lowerSelect_run] at hr
      cases hr
      exact ⟨_, _, lowerSelect_run .., .temp ..⟩
    · exact lockstep_throw ..

theorem lowerExpr_accepted {ts : List Token} {d d' : Draft} {v : Operand}
    (h : (lowerExpr ts).run d = .ok v d') (e : Draft) : ∃ w e', (lowerExpr ts).run e = .ok w e' := by
  obtain ⟨w, e', hw, _⟩ := (lockstep_lower.1 ts).follow h e
  exact ⟨w, e', hw⟩

/-! ## Statements -/

theorem lockstep_lowerAssign (x : Token) (expr : List Token) :
    Lockstep (fun _ _ => True) (lowerAssign x expr) (lowerAssign x expr) := by
  have hdeclare : Lockstep (fun _ _ => True) (declare x) (declare x) := by
    unfold declare
    split
    · exact ⟨fun _ _ => ⟨_, _, rfl, trivial⟩⟩
    · exact lockstep_throw ..
  exact hdeclare.bind fun _ _ _ => (lockstep_lower.1 expr).bind fun _ _ _ => lockstep_emit ..

theorem lockstep_lowerTest (cond : List Token) (body exit body' exit' : Label) :
    Lockstep (fun _ _ => True) (lowerTest cond body exit) (lowerTest cond body' exit') :=
  (lockstep_lower.1 cond).bind fun _ _ _ => lockstep_freshTemp.bind fun _ _ _ => lockstep_emit ..

theorem lockstep_lowerLines (lines : List Line) :
    Lockstep (fun _ _ => True) (lowerLines lines) (lowerLines lines) := by
  induction lines using lowerLines.induct with
  | case1 => rw [lowerLines_nil]; exact lockstep_pure trivial
  | case2 line following c hf => simp only [lowerLines_cons, hf]; exact lockstep_throw ..
  | case3 line following hf ih => simpa only [lowerLines_cons, hf] using ih
  | case4 line following expr hf ih =>
    simp only [lowerLines_cons, hf]
    have hprint : Lockstep (fun _ _ => True) (lowerPrint expr) (lowerPrint expr) :=
      (lockstep_lower.1 expr).bind fun _ _ _ => lockstep_emit ..
    exact (lockstep_atLine hprint).bind fun _ _ _ => ih
  | case5 line following x expr hf ih =>
    simp only [lowerLines_cons, hf]
    exact (lockstep_atLine (lockstep_lowerAssign x expr)).bind fun _ _ _ => ih
  | case6 line following c tokens hf ihb ihr =>
    simp only [lowerLines_cons, hf]
    have hfresh : Lockstep (fun _ _ => True) (c.fresh : EStateM SyntaxError Draft Nat) c.fresh :=
      ⟨fun _ e => ⟨_, _, c.fresh_run e, trivial⟩⟩
    refine hfresh.bind fun id id' _ => (lockstep_emit ..).bind fun _ _ _ => ?_
    split
    · exact lockstep_throw ..
    · rename_i cond rest hg
      refine (lockstep_atLine (lockstep_lowerTest cond ..)).bind fun _ _ _ => ?_
      split
      · exact lockstep_throw ..
      · rename_i block hb
        exact (ihb cond rest hg block hb).bind fun _ _ _ => (lockstep_emit ..).bind fun _ _ _ =>
          ihr cond rest hg block hb

theorem lowerLines_accepted {lines : List Line} {d d' : Draft} (h : (lowerLines lines).run d = .ok () d')
    (e : Draft) : ∃ e', (lowerLines lines).run e = .ok () e' := by
  obtain ⟨_, e', he, _⟩ := (lockstep_lowerLines lines).follow h e
  exact ⟨e', he⟩

end SlotCompiler
