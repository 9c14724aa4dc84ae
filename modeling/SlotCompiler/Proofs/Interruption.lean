import SlotCompiler.Proofs.Growth

/-!
# Where a failing run stops

A lowering that fails leaves the draft as it is at the failure. Inside an expression that is still a
list of moves, with the choices that were being evaluated left open. `Stops` adds the places where a
statement can be left, and `stops_of_lowerLines` finds every failing run at one of them.
-/

namespace SlotCompiler

/-! ## Runs that fail -/

theorem run_bind_error {ε σ α β : Type} {x : EStateM ε σ α} {f : α → EStateM ε σ β} {s s' : σ} {e : ε}
    (h : (x >>= f).run s = .error e s') :
    x.run s = .error e s' ∨ ∃ a s₁, x.run s = .ok a s₁ ∧ (f a).run s₁ = .error e s' := by
  rw [EStateM.run_bind] at h
  cases hx : x.run s with
  | ok a s₁ => rw [hx] at h; exact .inr ⟨a, s₁, rfl, h⟩
  | error e' s₁ => rw [hx] at h; cases h; exact .inl rfl

theorem run_bind_of_error {ε σ α β : Type} {x : EStateM ε σ α} {f : α → EStateM ε σ β} {s s' : σ} {e : ε}
    (h : x.run s = .error e s') : (x >>= f).run s = .error e s' := by
  rw [EStateM.run_bind, h]

theorem run_atLine_error {α : Type} {n : Nat} {x : EStateM Cause Draft α} {d d' : Draft} {e : SyntaxError}
    (h : (atLine n x).run d = .error e d') : ∃ c, x.run d = .error c d' := by
  rw [atLine, EStateM.run_adaptExcept] at h
  cases hx : x.run d with
  | ok a d₁ => rw [hx] at h; cases h
  | error c d₁ => rw [hx] at h; cases h; exact ⟨c, rfl⟩

/-! ## Expressions -/

/-- Lowering has gone on from `cs` and has stopped somewhere. -/
def Evaluates.Breaks (names : List String) (d : Draft) (cs : List Instr) (d' : Draft) : Prop :=
  ∃ ps ds, Evaluates names d ps (cs ++ ds) d'

section
variable {names : List String} {d d₁ d₂ : Draft} {ps : List Nat} {cs : List Instr} {c : Cause}

theorem Evaluates.breaks (h : Evaluates names d ps cs d₁) : Evaluates.Breaks names d cs d₁ :=
  ⟨ps, [], by rwa [List.append_nil]⟩

theorem Evaluates.Breaks.of_append {ds : List Instr} (h : Evaluates.Breaks names d (cs ++ ds) d₁) :
    Evaluates.Breaks names d cs d₁ := by
  obtain ⟨qs, es, h⟩ := h
  exact ⟨qs, ds ++ es, by rwa [← List.append_assoc]⟩

theorem declare_breaks {x : Token} (h : Evaluates names d ps cs d₁)
    (hr : (declare x).run d₁ = .error c d₂) : Evaluates.Breaks names d cs d₂ := by
  unfold declare at hr
  split at hr
  · cases hr
  · cases hr
    exact h.breaks

theorem loadVar_breaks {x : Token} (h : Evaluates names d ps cs d₁)
    (hr : (loadVar x).run d₁ = .error c d₂) : Evaluates.Breaks names d cs d₂ := by
  rcases run_bind_error hr with hr | ⟨_, _, _, hr⟩
  · exact declare_breaks h hr
  · cases hr

theorem fetch_breaks {w : Value} (h : Evaluates names d ps cs d₁) (hr : w.fetch.run d₁ = .error c d₂) :
    Evaluates.Breaks names d cs d₂ := by
  cases w with
  | ready v => cases hr
  | var x => exact loadVar_breaks h hr

theorem lowerArith_breaks {a : Arith} {l r : Value} (h : Evaluates names d ps cs d₁)
    (hl : l.Usable names cs) (hr : r.Usable names cs)
    (hv : (lowerArith a l r).run d₁ = .error c d₂) : Evaluates.Breaks names d cs d₂ := by
  rcases run_bind_error hv with hv | ⟨rhs, d', hrhs, hv⟩
  · exact fetch_breaks h hv
  · obtain ⟨ds, he, _⟩ := fetch_evaluates h hr hrhs
    rcases run_bind_error hv with hv | ⟨lhs, d'', hlhs, hv⟩
    · exact (fetch_breaks he hv).of_append
    · obtain ⟨es, he', _⟩ := fetch_evaluates he (hl.append ds) hlhs
      split at hv
      · cases hv
        exact he'.breaks.of_append.of_append
      · cases hv

theorem runPostfix_breaks {cells : List Cell} {stack : List Value} (h : Evaluates names d ps cs d₁)
    (hs : ∀ w ∈ stack, w.Usable names cs) (hc : ∀ w, .value w ∈ cells → w.Usable names cs)
    (hr : (runPostfix stack cells).run d₁ = .error c d₂) : Evaluates.Breaks names d cs d₂ := by
  induction stack, cells using runPostfix.induct generalizing cs d₁ with
  | case1 stack w cells ih =>
    refine ih h ?_ (fun u hu => hc u (.tail _ hu)) hr
    intro u hu
    rcases List.mem_cons.mp hu with rfl | hu
    · exact hc _ (.head _)
    · exact hs u hu
  | case2 r l stack a cells ih =>
    rcases run_bind_error hr with hr | ⟨w, d', hw, hr⟩
    · exact lowerArith_breaks h (hs l (by simp)) (hs r (by simp)) hr
    · obtain ⟨ds, he, hk⟩ := lowerArith_evaluates h (hs l (by simp)) (hs r (by simp)) hw
      refine (ih w he ?_ (fun u hu => (hc u (.tail _ hu)).append ds) hr).of_append
      intro u hu
      rcases List.mem_cons.mp hu with rfl | hu
      · exact hk
      · exact (hs u (.tail _ (.tail _ hu))).append ds
  | case3 v => cases hr
  | case4 _ _ h₁ h₂ h₃ =>
    rw [runPostfix.eq_4 _ _ h₁ h₂ h₃] at hr
    cases hr
    exact h.breaks

theorem lowerPostfix_breaks {terms : List Term} (h : Evaluates names d ps cs d₁)
    (ht : ∀ w, .value w ∈ terms → w.Usable names cs)
    (hr : (lowerPostfix terms).run d₁ = .error c d₂) : Evaluates.Breaks names d cs d₂ := by
  unfold lowerPostfix at hr
  split at hr
  · cases hr
    exact h.breaks
  · rename_i cells hc
    have hcells : ∀ w, .value w ∈ cells → w.Usable names cs := fun w hw => ht w (toPostfix_values hc hw)
    rcases run_bind_error hr with hr | ⟨w, d', hw, hr⟩
    · exact runPostfix_breaks h (by simp) hcells hr
    · obtain ⟨ds, he, _⟩ := runPostfix_evaluates h (by simp) hcells hw
      exact (fetch_breaks he hr).of_append

theorem lowerSingle_breaks {t : Token} (h : Evaluates names d ps cs d₁)
    (hr : (lowerSingle t).run d₁ = .error c d₂) : Evaluates.Breaks names d cs d₂ := by
  unfold lowerSingle at hr
  split at hr
  · split at hr
    · cases hr
    · cases hr
      exact h.breaks
  · exact loadVar_breaks h hr

end

theorem lower_breaks {names : List String} :
    (∀ ts, Covers names ts → ∀ {d d₁ d₂ ps cs c}, Evaluates names d ps cs d₁ →
      (lowerExpr ts).run d₁ = .error c d₂ → Evaluates.Breaks names d cs d₂) ∧
    (∀ ts, Covers names ts → ∀ {d d₁ d₂ ps cs c}, Evaluates names d ps cs d₁ →
      (lowerTerms ts).run d₁ = .error c d₂ → Evaluates.Breaks names d cs d₂) ∧
    (∀ ts, Covers names ts → ∀ {d d₁ d₂ ps cs c}, Evaluates names d ps cs d₁ →
      (lowerChoose ts).run d₁ = .error c d₂ → Evaluates.Breaks names d cs d₂) := by
  refine lowerExpr.mutual_induct _ _ _ ?_ ?_ ?_ ?_ ?_ ?_ ?_ ?_ ?_ ?_ ?_
  · intro _ d d₁ d₂ ps cs c h hr
    rw [lowerExpr_nil] at hr; cases hr
    exact h.breaks
  · intro t _ d d₁ d₂ ps cs c h hr
    rw [lowerExpr_singleton] at hr
    exact lowerSingle_breaks h hr
  · intro t u ts hj _ d d₁ d₂ ps cs c h hr
    rw [lowerExpr_cons_cons, hj] at hr; cases hr
    exact h.breaks
  · intro t u ts joined hj he _ d d₁ d₂ ps cs c h hr
    simp only [lowerExpr_cons_cons, hj, he] at hr; cases hr
    exact h.breaks
  · intro t u ts joined hj he ih hn d d₁ d₂ ps cs c h hr
    simp only [lowerExpr_cons_cons, hj, he] at hr
    have hn' := hn.joinSigns hj
    rcases run_bind_error hr with hr | ⟨terms, d', ht, hr⟩
    · exact ih hn' h hr
    · obtain ⟨ds, hds, hk⟩ := lower_evaluates.2.1 joined hn' h ht
      exact (lowerPostfix_breaks hds hk hr).of_append
  · intro _ d d₁ d₂ ps cs c h hr
    rw [lowerTerms_nil] at hr; cases hr
  · intro ts hg _ d d₁ d₂ ps cs c h hr
    simp only [lowerTerms_cons, hg] at hr; cases hr
    exact h.breaks
  · intro ts inner rest hg ihc iht hn d d₁ d₂ ps cs c h hr
    simp only [lowerTerms_cons, hg] at hr
    obtain ⟨hi, hrest⟩ := (hn.subset (List.subset_cons_self ..)).group? hg
    rcases run_bind_error hr with hr | ⟨v, d', hv, hr⟩
    · exact ihc hi h hr
    · obtain ⟨ds, hds, _⟩ := lower_evaluates.2.2 inner hi h hv
      rcases run_bind_error hr with hr | ⟨_, _, _, hr⟩
      · exact (iht hrest hds hr).of_append
      · cases hr
  · intro t ts hc c ht _ d d₁ d₂ ps cs c h hr
    simp only [lowerTerms_cons, hc, ht] at hr; cases hr
    exact h.breaks
  · intro t ts hc term ht ih hn d d₁ d₂ ps cs c h hr
    simp only [lowerTerms_cons, hc, ht] at hr
    rcases run_bind_error hr with hr | ⟨_, _, _, hr⟩
    · exact ih (hn.subset (List.subset_cons_self ..)) h hr
    · cases hr
  · intro ts ih₁ ih₂ ih₃ ih₄ hn d d₁ d₂ ps cs c h hr
    rw [lowerChoose_eq, run_bind_of_ok (freshTemp_run d₁)] at hr
    -- The slot is set aside before anything else, and stays so if an argument fails.
    have h := h.reserve
    split at hr
    · rename_i s z p n ha
      obtain ⟨n₁, n₂, n₃, n₄⟩ := hn.arguments ha
      rcases run_bind_error hr with hr | ⟨_, _, hs, hr⟩
      · exact ih₁ s z p n ha n₁ h hr
      obtain ⟨_, h₁, _⟩ := lower_evaluates.1 s n₁ h hs
      apply Evaluates.Breaks.of_append
      rcases run_bind_error hr with hr | ⟨_, _, hz, hr⟩
      · exact ih₂ s z p n ha n₂ h₁ hr
      obtain ⟨_, h₂, _⟩ := lower_evaluates.1 z n₂ h₁ hz
      apply Evaluates.Breaks.of_append
      rcases run_bind_error hr with hr | ⟨_, _, hp, hr⟩
      · exact ih₃ s z p n ha n₃ h₂ hr
      obtain ⟨_, h₃, _⟩ := lower_evaluates.1 p n₃ h₂ hp
      apply Evaluates.Breaks.of_append
      rcases run_bind_error hr with hr | ⟨_, _, hn, hr⟩
      · exact ih₄ s z p n ha n₄ h₃ hr
      rw [lowerSelect_run] at hr
      cases hr
    · cases hr
      exact h.breaks

/-! ## Statements -/

/-- The code of a run that was left somewhere, and the draft it has left behind. -/
inductive Stops (names : List String) : Draft → List Instr → Draft → Prop
  | expr {d d₁ : Draft} {ps : List Nat} {cs : List Instr} :
    Evaluates names d ps cs d₁ → Stops names d cs d₁
  | next {d d₁ d₂ : Draft} {cs ds : List Instr} :
    Emits names d cs d₁ → Stops names d₁ ds d₂ → Stops names d (cs ++ ds) d₂
  | cond {d d₁ : Draft} {ps : List Nat} {cs : List Instr} (c : Control) :
    Evaluates names ((c.claim d).push (c.enter (c.nextId d))) ps cs d₁ →
    Stops names d (c.enter (c.nextId d) ++ cs) d₁
  | body {d d₁ d₂ : Draft} {cs body : List Instr} {v : Operand} (c : Control) :
    Evaluates names ((c.claim d).push (c.enter (c.nextId d))) [] cs d₁ →
    Stops names (d₁.takeTemp.push (c.guard (c.nextId d) (d₁.temps + 1) v)) body d₂ →
    Stops names d (c.enter (c.nextId d) ++ cs ++ c.guard (c.nextId d) (d₁.temps + 1) v ++ body) d₂

theorem Evaluates.Breaks.stops {names : List String} {d d' : Draft}
    (h : Evaluates.Breaks names d [] d') : ∃ cs, Stops names d cs d' := by
  obtain ⟨_, cs, h⟩ := h
  exact ⟨cs, .expr h⟩

section
variable {names : List String} {line : Line} {following : List Line} {ctl : Control}
  {tokens : List Token} {d d' : Draft} {c : Cause} {e : SyntaxError}

theorem lowerPrint_breaks {expr : List Token} (hn : Covers names expr)
    (h : (lowerPrint expr).run d = .error c d') : Evaluates.Breaks names d [] d' := by
  rcases run_bind_error h with h | ⟨_, _, _, h⟩
  · exact lower_breaks.1 expr hn .start h
  · cases h

theorem lowerAssign_breaks {x : Token} {expr : List Token} (hn : Covers names (x :: expr))
    (h : (lowerAssign x expr).run d = .error c d') : Evaluates.Breaks names d [] d' := by
  rcases run_bind_error h with h | ⟨_, _, hs, h⟩
  · exact declare_breaks .start h
  · obtain ⟨cs, he, _⟩ := declare_evaluates .start (hn x (.head _)) hs
    rcases run_bind_error h with h | ⟨_, _, _, h⟩
    · exact (lower_breaks.1 expr (hn.subset (List.subset_cons_self ..)) he h).of_append
    · cases h

/-- The five places where a statement with a block can fail. -/
theorem lowerLines_control_error (hf : Form.ofTokens line.tokens = .ok (.control ctl tokens))
    (h : (lowerLines (line :: following)).run d = .error e d') :
    d' = (ctl.claim d).push (ctl.enter (ctl.nextId d)) ∨
    ∃ cond rest, group? tokens = some (cond, rest) ∧
      ((∃ c, (lowerExpr cond).run ((ctl.claim d).push (ctl.enter (ctl.nextId d))) = .error c d') ∨
      ∃ v d₁, (lowerExpr cond).run ((ctl.claim d).push (ctl.enter (ctl.nextId d))) = .ok v d₁ ∧
        (d' = d₁.takeTemp.push (ctl.guard (ctl.nextId d) (d₁.temps + 1) v) ∨
        ∃ block, Block.cut ⟨line.number, rest⟩ following = .ok block ∧
          ((lowerLines block.body).run
              (d₁.takeTemp.push (ctl.guard (ctl.nextId d) (d₁.temps + 1) v)) = .error e d' ∨
          ∃ d₂, (lowerLines block.body).run
              (d₁.takeTemp.push (ctl.guard (ctl.nextId d) (d₁.temps + 1) v)) = .ok () d₂ ∧
            (lowerLines block.remaining).run (d₂.push (ctl.close (ctl.nextId d))) = .error e d'))) := by
  simp only [lowerLines_cons, hf] at h
  rw [run_bind_of_ok (ctl.fresh_run d), run_bind_of_ok (emit_run ..)] at h
  split at h
  · cases h
    exact .inl rfl
  · rename_i cond rest hg
    refine .inr ⟨cond, rest, hg, ?_⟩
    rcases run_bind_error h with h | ⟨_, _, ht, h⟩
    · obtain ⟨c, hc⟩ := run_atLine_error h
      rcases run_bind_error hc with hc | ⟨_, _, _, hc⟩
      · exact .inl ⟨c, hc⟩
      · cases hc
    · obtain ⟨v, d₁, hv, ht⟩ := run_bind_ok (run_atLine_ok ht)
      cases ht
      refine .inr ⟨v, d₁, hv, ?_⟩
      split at h
      · cases h
        exact .inl rfl
      · rename_i block hb
        refine .inr ⟨block, hb, ?_⟩
        rcases run_bind_error h with h | ⟨_, d₂, hbody, h⟩
        · exact .inl h
        · rw [run_bind_of_ok (emit_run ..)] at h
          exact .inr ⟨d₂, hbody, h⟩

end

theorem stops_of_lowerLines {names : List String} {lines : List Line} {d d' : Draft} {e : SyntaxError}
    (hn : Covers names (allTokens lines)) (h : (lowerLines lines).run d = .error e d') :
    ∃ cs, Stops names d cs d' := by
  induction lines using lowerLines.induct generalizing d d' with
  | case1 => rw [lowerLines_nil] at h; cases h
  | case2 line following c hf =>
    simp only [lowerLines_cons, hf] at h; cases h
    exact ⟨[], .expr .start⟩
  | case3 line following hf ih =>
    simp only [lowerLines_cons, hf] at h
    exact ih (hn.subset (by simp)) h
  | case4 line following expr hf ih =>
    simp only [lowerLines_cons, hf] at h
    have hexpr : Covers names expr := hn.subset fun t ht => by simp [Form.eq_of_print hf, ht]
    rcases run_bind_error h with h | ⟨_, d₁, hp, h⟩
    · obtain ⟨c, hc⟩ := run_atLine_error h
      exact (lowerPrint_breaks hexpr hc).stops
    · obtain ⟨cs, hcs⟩ := lowerPrint_emits hexpr (run_atLine_ok hp) .done
      obtain ⟨ds, hds⟩ := ih (hn.subset (by simp)) h
      exact ⟨cs ++ ds, .next hcs hds⟩
  | case5 line following x expr hf ih =>
    simp only [lowerLines_cons, hf] at h
    have hexpr : Covers names (x :: expr) := hn.subset fun t ht => by
      rcases List.mem_cons.mp ht with rfl | ht <;> simp [Form.eq_of_assign hf, *]
    rcases run_bind_error h with h | ⟨_, d₁, hp, h⟩
    · obtain ⟨c, hc⟩ := run_atLine_error h
      exact (lowerAssign_breaks hexpr hc).stops
    · obtain ⟨cs, hcs⟩ := lowerAssign_emits hexpr (run_atLine_ok hp) .done
      obtain ⟨ds, hds⟩ := ih (hn.subset (by simp)) h
      exact ⟨cs ++ ds, .next hcs hds⟩
  | case6 line following c tokens hf ihb ihr =>
    rcases lowerLines_control_error hf h with rfl | ⟨cond, rest, hg, herr⟩
    · exact ⟨_, .cond c .start⟩
    have hcond := hn.condition hf hg
    rcases herr with ⟨_, hc⟩ | ⟨v, d₁, hv, herr⟩
    · obtain ⟨_, _, hcs⟩ := lower_breaks.1 cond hcond .start hc
      exact ⟨_, .cond c hcs⟩
    obtain ⟨cs, hcs, hk⟩ := lowerExpr_evaluates hcond hv
    rcases herr with rfl | ⟨block, hb, herr⟩
    · exact ⟨_, .body c hcs (.expr .start)⟩
    obtain ⟨hnb, hnr⟩ := hn.block hf hg hb
    rcases herr with hbody | ⟨d₂, hbody, hrest⟩
    · obtain ⟨bs, hbs⟩ := ihb cond rest hg block hb hnb hbody
      exact ⟨_, .body c hcs hbs⟩
    · obtain ⟨bs, hbs⟩ := lowerLines_emits hnb hbody
      obtain ⟨rs, hrs⟩ := ihr cond rest hg block hb hnr hrest
      exact ⟨_, .next (.control c hcs hk hbs .done) hrs⟩

end SlotCompiler
