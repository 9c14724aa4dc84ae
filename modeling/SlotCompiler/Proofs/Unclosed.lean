import SlotCompiler.Proofs.Extraction

/-!
# Blocks that never close

The body of a block closes as many blocks as it opens, and so does every part of it that is accepted. So
a header inside of a body finds the end of its block, or fails for another reason; only a header outside
of all blocks can run out of lines. `Asks` lists the blocks that a run asks for, with the number of blocks
around each, and `unclosed_of_lowerLines` says that one that runs out has none around it and is blamed on
the last line.
-/

namespace SlotCompiler

/-! ## Running out of lines -/

/-- The block of the header opens, and the lines end inside of it. -/
def RunsOut (header : Line) (following : List Line) : Prop :=
  ∃ line ts after s, line.tokens = openBrace :: ts ∧
    Scan.lines {} (⟨line.number, ts⟩ :: after) = .inside s ∧
    (header = line ∧ following = after ∨ header.tokens = [] ∧ following = line :: after)

theorem exists_lastNumber? (line : Line) (lines : List Line) : ∃ n, lastNumber? (line :: lines) = some n := by
  simp [lastNumber?, List.getLast?_cons]

section
variable {s : Scan} {line header : Line} {following : List Line} {n : Nat}

theorem Block.scan_eq_unclosed_iff : scan s line following = .error ⟨n, .unclosed⟩ ↔
    (∃ s', s.lines (line :: following) = .inside s') ∧ lastNumber? (line :: following) = some n := by
  induction following generalizing s line with
  | nil =>
    rw [scan, Scan.lines]
    cases s.line line.tokens with
    | stray => simp
    | closed body rest => simp
    | inside s' => simp [Scan.lines, lastNumber?]
  | cons next following ih =>
    rw [scan, Scan.lines, lastNumber?_cons_cons]
    cases s.line line.tokens with
    | stray => simp
    | closed body rest => simp
    | inside s' =>
      simp only
      rw [← ih]
      cases scan { s' with fresh := true } next following with
      | ok b => simp [Except.map]
      | error e => simp [Except.map]

theorem Block.openAt_eq_unclosed_iff {m : Nat} : openAt m line following = .error ⟨n, .unclosed⟩ ↔
    (∃ ts s, line.tokens = openBrace :: ts ∧ Scan.lines {} (⟨line.number, ts⟩ :: following) = .inside s) ∧
      lastNumber? (line :: following) = some n := by
  unfold openAt
  cases line.tokens with
  | nil => simp
  | cons t ts =>
    by_cases ho : t = openBrace
    · simp only [if_pos ho]
      rw [scan_eq_unclosed_iff, lastNumber?_cons]
      simp [ho]
    · simp [ho]

theorem cut_eq_unclosed_iff : Block.cut header following = .error ⟨n, .unclosed⟩ ↔
    RunsOut header following ∧ lastNumber? (header :: following) = some n := by
  constructor
  · intro h
    unfold Block.cut at h
    split at h
    · cases h
    · rename_i next after hh
      obtain ⟨⟨ts, s, ht, hs⟩, hn⟩ := Block.openAt_eq_unclosed_iff.mp h
      exact ⟨⟨next, ts, after, s, ht, hs, .inr ⟨hh, rfl⟩⟩, by rw [lastNumber?_cons_cons, hn]⟩
    · obtain ⟨⟨ts, s, ht, hs⟩, hn⟩ := Block.openAt_eq_unclosed_iff.mp h
      exact ⟨⟨header, ts, _, s, ht, hs, .inl ⟨rfl, rfl⟩⟩, hn⟩
  · rintro ⟨⟨line, ts, after, s, ht, hs, ⟨rfl, rfl⟩ | ⟨hh, rfl⟩⟩, hn⟩
    · simp only [Block.cut, ht]
      exact Block.openAt_eq_unclosed_iff.mpr ⟨⟨ts, s, ht, hs⟩, hn⟩
    · simp only [Block.cut, hh]
      rw [lastNumber?_cons_cons] at hn
      exact Block.openAt_eq_unclosed_iff.mpr ⟨⟨ts, s, ht, hs⟩, hn⟩

theorem RunsOut.braces_pos (h : RunsOut header following) : 0 < braces (allTokens (header :: following)) := by
  obtain ⟨line, ts, after, s, ht, hs, hline⟩ := h
  have hdepth := Scan.depth_of_lines hs
  have hpos : 0 < braces (allTokens (line :: after)) := by
    rw [allTokens_cons] at hdepth ⊢
    rw [ht, List.cons_append, braces_cons, braces_openBrace]
    simp only at hdepth
    omega
  rcases hline with ⟨rfl, rfl⟩ | ⟨hh, rfl⟩
  · exact hpos
  · rw [allTokens_cons, hh]
    exact hpos

theorem braces_of_cut {b : Block} (h : Block.cut header following = .ok b) :
    braces (allTokens b.body) = 0 := by
  rw [braces, (balanced_of_cut h).closed, Int.sub_self]

end

/-! ## The blocks that a run asks for -/

/-- The header of a statement is lowered, which leaves `rest` on the line. -/
def Heads (c : Control) (line : Line) (rest : List Token) (d d' : Draft) : Prop :=
  ∃ tokens cond v d₁, Form.ofTokens line.tokens = .ok (.control c tokens) ∧
    group? tokens = some (cond, rest) ∧
    (lowerExpr cond).run ((c.claim d).push (c.enter (c.nextId d))) = .ok v d₁ ∧
    d' = d₁.takeTemp.push (c.guard (c.nextId d) (d₁.temps + 1) v)

/-- Lowering the lines from a draft comes to a header and asks for its block, `depth` blocks being open
around it. -/
inductive Asks : Nat → List Line → Draft → Line → List Line → Prop
  | here {line : Line} {following : List Line} {c : Control} {rest : List Token} {d d' : Draft} :
    Heads c line rest d d' → Asks 0 (line :: following) d ⟨line.number, rest⟩ following
  | plain {depth : Nat} {line header : Line} {following after : List Line} {d d' : Draft} :
    (∀ c tokens, Form.ofTokens line.tokens ≠ .ok (.control c tokens)) →
    (lowerLines [line]).run d = .ok () d' → Asks depth following d' header after →
    Asks depth (line :: following) d header after
  | body {depth : Nat} {line header : Line} {following after : List Line} {c : Control}
      {rest : List Token} {b : Block} {d d' : Draft} :
    Heads c line rest d d' → Block.cut ⟨line.number, rest⟩ following = .ok b →
    Asks depth b.body d' header after → Asks (depth + 1) (line :: following) d header after
  | behind {depth : Nat} {line header : Line} {following after : List Line} {c : Control}
      {rest : List Token} {b : Block} {d d₁ d₂ : Draft} :
    Heads c line rest d d₁ → Block.cut ⟨line.number, rest⟩ following = .ok b →
    (lowerLines b.body).run d₁ = .ok () d₂ →
    Asks depth b.remaining (d₂.push (c.close (c.nextId d))) header after →
    Asks depth (line :: following) d header after

section
variable {depth : Nat} {lines following after : List Line} {line header : Line} {c : Control}
  {rest : List Token} {d d' : Draft} {e : SyntaxError}

theorem Heads.run (h : Heads c line rest d d') (following : List Line) :
    (lowerLines (line :: following)).run d =
      match Block.cut ⟨line.number, rest⟩ following with
      | .error e => .error e d'
      | .ok b => (lowerLines b.body >>= fun _ =>
          emit (c.close (c.nextId d)) >>= fun _ => lowerLines b.remaining).run d' := by
  obtain ⟨tokens, cond, v, d₁, hf, hg, hv, rfl⟩ := h
  have ht : (atLine line.number (lowerTest cond (c.body (c.nextId d)) (c.exit (c.nextId d)))).run
      ((c.claim d).push (c.enter (c.nextId d))) =
      .ok () (d₁.takeTemp.push (c.guard (c.nextId d) (d₁.temps + 1) v)) :=
    run_atLine_of_ok (lowerTest_run _ _ hv)
  simp only [lowerLines_cons, hf]
  rw [run_bind_of_ok (c.fresh_run d), run_bind_of_ok (emit_run ..)]
  simp only [hg]
  rw [run_bind_of_ok ht]
  cases Block.cut ⟨line.number, rest⟩ following with
  | error e => rfl
  | ok b => rfl

theorem Heads.braces_eq (h : Heads c line rest d d') (following : List Line) :
    braces (allTokens (line :: following)) = braces (allTokens (⟨line.number, rest⟩ :: following)) := by
  obtain ⟨tokens, cond, v, d₁, hf, hg, hv, _⟩ := h
  have htokens : allTokens (line :: following) =
      (c.keyword :: "(" :: (cond ++ [")"])) ++ allTokens (⟨line.number, rest⟩ :: following) := by
    simp [Form.eq_of_control hf, eq_of_group? hg]
  rw [htokens, braces_append, braces_header c (plain_of_lowerExpr hv), Int.zero_add]

/-- A block that runs out of lines is inside of no other, and the lines that remain are the last. -/
theorem Asks.runsOut (h : Asks depth lines d header after) (hr : RunsOut header after) :
    depth = 0 ∧ 0 < braces (allTokens lines) ∧ lastNumber? lines = lastNumber? (header :: after) := by
  induction h with
  | @here line following c rest d d' hh =>
    refine ⟨rfl, ?_, (lastNumber?_cons rest).symm⟩
    rw [hh.braces_eq]
    exact hr.braces_pos
  | @plain depth line header following after d d' hf hl _ ih =>
    obtain ⟨hdepth, hpos, hlast⟩ := ih hr
    obtain ⟨hplain, _⟩ := plain_of_lowerLines hf hl
    refine ⟨hdepth, ?_, ?_⟩
    · rw [allTokens_cons, braces_append, braces_plain hplain, Int.zero_add]
      exact hpos
    · cases following with
      | nil => exact absurd hpos (by simp)
      | cons next following => rw [lastNumber?_cons_cons, hlast]
  | @body depth line header following after c rest b d d' _ hb _ ih =>
    -- More braces would open in the body than close.
    obtain ⟨_, hpos, _⟩ := ih hr
    rw [braces_of_cut hb] at hpos
    exact absurd hpos (Int.lt_irrefl 0)
  | @behind depth line header following after c rest b d d₁ d₂ hh hb _ _ ih =>
    obtain ⟨hdepth, hpos, hlast⟩ := ih hr
    refine ⟨hdepth, ?_, ?_⟩
    · rw [hh.braces_eq, allTokens_of_cut hb, braces_cons, braces_append, braces_cons closeBrace,
        braces_openBrace, braces_closeBrace, braces_of_cut hb]
      omega
    · obtain ⟨n, hn⟩ := exists_lastNumber? header after
      rw [hn] at hlast ⊢
      rw [← lastNumber?_cons rest, last_of_cut hb hlast]

theorem Asks.run_error (h : Asks depth lines d header after) (he : Block.cut header after = .error e) :
    ∃ d', (lowerLines lines).run d = .error e d' := by
  induction h with
  | @here line following c rest d d' hh => exact ⟨d', by rw [hh.run, he]⟩
  | @plain depth line header following after d d' _ hl _ ih =>
    obtain ⟨d₁, hd₁⟩ := ih he
    exact ⟨d₁, by rw [← hd₁]; exact run_lowerLines_append following hl⟩
  | @body depth line header following after c rest b d d' hh hb _ ih =>
    obtain ⟨d₁, hd₁⟩ := ih he
    refine ⟨d₁, ?_⟩
    rw [hh.run, hb]
    exact run_bind_of_error hd₁
  | @behind depth line header following after c rest b d d₁ d₂ hh hb hbody _ ih =>
    obtain ⟨d₃, hd₃⟩ := ih he
    refine ⟨d₃, ?_⟩
    rw [hh.run, hb]
    simp only
    rw [run_bind_of_ok hbody, run_bind_of_ok (emit_run ..), hd₃]

end

/-! ## Causes of failures -/

def Spares {α : Type} (x : EStateM Cause Draft α) : Prop :=
  ∀ d c d', x.run d = .error c d' → c ≠ .unclosed

section
variable {α β : Type} {c : Cause}

theorem Spares.bind {x : EStateM Cause Draft α} {f : α → EStateM Cause Draft β} (h : Spares x)
    (hf : ∀ a, Spares (f a)) : Spares (x >>= f) := by
  intro d c d' hr
  rcases run_bind_error hr with hx | ⟨a, d₁, _, ha⟩
  · exact h d c d' hx
  · exact hf a d₁ c d' ha

theorem spares_pure (a : α) : Spares (pure a) := by
  intro d c d' hr
  cases hr

theorem spares_throw (h : c ≠ .unclosed) : Spares (throw c : EStateM Cause Draft α) := by
  intro d c' d' hr
  cases hr
  exact h

theorem spares_emit (code : List Instr) : Spares (emit code) := by
  intro d c d' hr
  cases hr

theorem spares_freshTemp : Spares freshTemp := by
  intro d c d' hr
  cases hr

theorem spares_declare (x : Token) : Spares (declare x) := by
  unfold declare
  split
  · intro d c d' hr
    cases hr
  · exact spares_throw (by simp)

theorem spares_loadVar (x : Token) : Spares (loadVar x) := by
  unfold loadVar
  apply (spares_declare x).bind
  intro slot d c d' hr
  cases hr

theorem spares_fetch (v : Value) : Spares v.fetch := by
  cases v with
  | ready v => exact spares_pure v
  | var x => exact spares_loadVar x

theorem spares_lowerArith (a : Arith) (l r : Value) : Spares (lowerArith a l r) := by
  unfold lowerArith
  apply (spares_fetch r).bind
  intro rhs
  apply (spares_fetch l).bind
  intro lhs
  split
  · exact spares_throw (by simp)
  · intro d c d' hr
    cases hr

theorem spares_runPostfix (stack : List Value) (cells : List Cell) : Spares (runPostfix stack cells) := by
  induction stack, cells using runPostfix.induct with
  | case1 stack v cells ih => exact ih
  | case2 r l stack a cells ih => exact (spares_lowerArith a l r).bind ih
  | case3 v => exact spares_pure v
  | case4 _ _ h₁ h₂ h₃ =>
    rw [runPostfix.eq_4 _ _ h₁ h₂ h₃]
    exact spares_throw (by simp)

theorem spares_lowerPostfix (terms : List Term) : Spares (lowerPostfix terms) := by
  unfold lowerPostfix
  split
  · exact spares_throw (by simp)
  · rename_i cells _
    exact (spares_runPostfix [] cells).bind spares_fetch

theorem spares_lowerSingle (t : Token) : Spares (lowerSingle t) := by
  unfold lowerSingle
  split
  · split
    · exact spares_pure _
    · exact spares_throw (by simp)
  · exact spares_loadVar t

theorem cause_of_ofToken {t : Token} (h : Term.ofToken t = .error c) : c ≠ .unclosed := by
  unfold Term.ofToken at h
  split at h
  · cases h
  split at h
  · cases h
  split at h
  · cases h
  split at h
  · split at h
    · cases h
    · cases h
      decide
  split at h
  · cases h
  · cases h
    decide

theorem spares_lower :
    (∀ ts, Spares (lowerExpr ts)) ∧ (∀ ts, Spares (lowerTerms ts)) ∧ (∀ ts, Spares (lowerChoose ts)) := by
  refine lowerExpr.mutual_induct _ _ _ ?_ ?_ ?_ ?_ ?_ ?_ ?_ ?_ ?_ ?_ ?_
  · rw [lowerExpr_nil]
    exact spares_throw (by simp)
  · intro t
    rw [lowerExpr_singleton]
    exact spares_lowerSingle t
  · intro t u ts hj
    simp only [lowerExpr_cons_cons, hj]
    exact spares_throw (by simp)
  · intro t u ts joined hj he
    simp only [lowerExpr_cons_cons, hj, he]
    exact spares_throw (by simp)
  · intro t u ts joined hj he ih
    simp only [lowerExpr_cons_cons, hj, he]
    exact ih.bind spares_lowerPostfix
  · rw [lowerTerms_nil]
    exact spares_pure []
  · intro ts hg
    simp only [lowerTerms_cons, hg]
    exact spares_throw (by simp)
  · intro ts inner rest hg ihc iht
    simp only [lowerTerms_cons, hg]
    exact ihc.bind fun v => iht.bind fun terms => spares_pure _
  · intro t ts hc c ht
    simp only [lowerTerms_cons, hc, ht]
    exact spares_throw (cause_of_ofToken ht)
  · intro t ts hc term ht ih
    simp only [lowerTerms_cons, hc, ht]
    exact ih.bind fun terms => spares_pure _
  · intro ts ih₁ ih₂ ih₃ ih₄
    rw [lowerChoose_eq]
    apply spares_freshTemp.bind
    intro dest
    split
    · rename_i s z p n ha
      apply (ih₁ s z p n ha).bind
      intro sv
      apply (ih₂ s z p n ha).bind
      intro zv
      apply (ih₃ s z p n ha).bind
      intro pv
      apply (ih₄ s z p n ha).bind
      intro nv d c d' hr
      rw [lowerSelect_run] at hr
      cases hr
    · exact spares_throw (by simp)

theorem spares_lowerPrint (expr : List Token) : Spares (lowerPrint expr) :=
  (spares_lower.1 expr).bind fun v => spares_emit [.print v]

theorem spares_lowerAssign (x : Token) (expr : List Token) : Spares (lowerAssign x expr) :=
  (spares_declare x).bind fun slot => (spares_lower.1 expr).bind fun v => spares_emit [.store v slot]

theorem Spares.atLine {x : EStateM Cause Draft α} (h : Spares x) {n : Nat} {d d' : Draft} {e : SyntaxError}
    (hr : (atLine n x).run d = .error e d') : e.cause ≠ .unclosed := by
  rw [SlotCompiler.atLine, EStateM.run_adaptExcept] at hr
  cases hx : x.run d with
  | ok a d₁ => rw [hx] at hr; cases hr
  | error c d₁ =>
    rw [hx] at hr
    cases hr
    exact h d c d' hx

theorem cause_of_ofTokens {ts : List Token} (h : Form.ofTokens ts = .error c) : c ≠ .unclosed := by
  unfold Form.ofTokens at h
  split at h
  · cases h
  · simp only at h
    split at h
    · cases h
      decide
    split at h
    · split at h
      · cases h
      · cases h
        decide
    split at h
    · cases h
    split at h
    · cases h
    split at h
    · cases h
    · cases h
      decide
  · cases h
    decide

end

section
variable {lines following : List Line} {line : Line} {c : Control} {tokens : List Token} {d d' : Draft}
  {e : SyntaxError}

theorem heads_of_unclosed (hf : Form.ofTokens line.tokens = .ok (.control c tokens))
    (h : (lowerLines (line :: following)).run d = .error e d') (he : e.cause = .unclosed) :
    ∃ cond rest d₁, group? tokens = some (cond, rest) ∧ Heads c line rest d d₁ := by
  simp only [lowerLines_cons, hf] at h
  rw [run_bind_of_ok (c.fresh_run d), run_bind_of_ok (emit_run ..)] at h
  split at h
  · cases h
    cases he
  · rename_i cond rest hg
    have hspares : Spares (lowerTest cond (c.body (c.nextId d)) (c.exit (c.nextId d))) :=
      (spares_lower.1 cond).bind fun v => spares_freshTemp.bind fun dest => spares_emit _
    rcases run_bind_error h with h | ⟨_, d₁, ht, _⟩
    · exact absurd he (hspares.atLine h)
    · obtain ⟨v, d₂, hv, ht⟩ := run_bind_ok (run_atLine_ok ht)
      exact ⟨cond, rest, _, hg, tokens, cond, v, d₂, hf, hg, hv, rfl⟩

theorem asks_of_plain {x : EStateM Cause Draft Unit}
    (hf : ∀ c tokens, Form.ofTokens line.tokens ≠ .ok (.control c tokens)) (hx : Spares x)
    (hstep : ∀ following, lowerLines (line :: following) =
      atLine line.number x >>= fun _ => lowerLines following)
    (h : (lowerLines (line :: following)).run d = .error e d') (he : e.cause = .unclosed)
    (ih : ∀ {d d'}, (lowerLines following).run d = .error e d' →
      ∃ header after, Asks 0 following d header after ∧ RunsOut header after) :
    ∃ header after, Asks 0 (line :: following) d header after ∧ RunsOut header after := by
  rw [hstep] at h
  rcases run_bind_error h with h | ⟨_, d₁, hp, h⟩
  · exact absurd he (hx.atLine h)
  · have hl : (lowerLines [line]).run d = .ok () d₁ := by
      rw [hstep, run_bind_of_ok hp, lowerLines_nil]
      rfl
    obtain ⟨header, after, ha, hr⟩ := ih h
    exact ⟨header, after, .plain hf hl ha, hr⟩

/-- A run that fails for want of a closing brace has asked for a block outside of all others. -/
theorem asks_of_unclosed (h : (lowerLines lines).run d = .error e d') (he : e.cause = .unclosed) :
    ∃ header after, Asks 0 lines d header after ∧ RunsOut header after := by
  induction lines using lowerLines.induct generalizing d d' with
  | case1 => rw [lowerLines_nil] at h; cases h
  | case2 line following c hf =>
    simp only [lowerLines_cons, hf] at h
    cases h
    exact absurd he (cause_of_ofTokens hf)
  | case3 line following hf ih =>
    have hl : (lowerLines [line]).run d = .ok () d := by
      simp only [lowerLines_cons, hf, lowerLines_nil]
      rfl
    simp only [lowerLines_cons, hf] at h
    obtain ⟨header, after, ha, hr⟩ := ih h
    exact ⟨header, after, .plain (by simp [hf]) hl ha, hr⟩
  | case4 line following expr hf ih =>
    have hstep := fun following => lowerLines_cons line following
    simp only [hf] at hstep
    exact asks_of_plain (by simp [hf]) (spares_lowerPrint expr) hstep h he ih
  | case5 line following x expr hf ih =>
    have hstep := fun following => lowerLines_cons line following
    simp only [hf] at hstep
    exact asks_of_plain (by simp [hf]) (spares_lowerAssign x expr) hstep h he ih
  | case6 line following c tokens hf ihb ihr =>
    obtain ⟨cond, rest, d₁, hg, hh⟩ := heads_of_unclosed hf h he
    rw [hh.run] at h
    cases hb : Block.cut ⟨line.number, rest⟩ following with
    | error e' =>
      rw [hb] at h
      cases h
      obtain ⟨n, cause⟩ := e
      obtain rfl : cause = .unclosed := he
      exact ⟨_, _, .here hh, (cut_eq_unclosed_iff.mp hb).1⟩
    | ok b =>
      rw [hb] at h
      rcases run_bind_error h with h | ⟨_, d₂, hbody, h⟩
      · -- A body has no block that runs out of lines.
        obtain ⟨header, after, ha, hr⟩ := ihb cond rest hg b hb h
        obtain ⟨_, hpos, _⟩ := ha.runsOut hr
        rw [braces_of_cut hb] at hpos
        exact absurd hpos (Int.lt_irrefl 0)
      · rw [run_bind_of_ok (emit_run ..)] at h
        obtain ⟨header, after, ha, hr⟩ := ihr cond rest hg b hb h
        exact ⟨header, after, .behind hh hb hbody ha, hr⟩

end

/-! ## Blame -/

theorem Asks.unclosed {depth : Nat} {lines after : List Line} {header : Line} {d : Draft}
    (h : Asks depth lines d header after) (hr : RunsOut header after) :
    depth = 0 ∧ ∃ n d', lastNumber? lines = some n ∧
      (lowerLines lines).run d = .error ⟨n, .unclosed⟩ d' := by
  obtain ⟨hdepth, _, hlast⟩ := h.runsOut hr
  obtain ⟨n, hn⟩ := exists_lastNumber? header after
  obtain ⟨d', hd'⟩ := h.run_error (cut_eq_unclosed_iff.mpr ⟨hr, hn⟩)
  exact ⟨hdepth, n, d', by rw [hlast, hn], hd'⟩

/-- Whatever the lines, a block that runs out of them is inside of no other, and the run fails with it on
the last line; and no run fails so for another reason. -/
theorem unclosed_of_lowerLines (lines : List Line) (d : Draft) :
    (∀ depth header after, Asks depth lines d header after → RunsOut header after → depth = 0 ∧
      ∃ n d', lastNumber? lines = some n ∧ (lowerLines lines).run d = .error ⟨n, .unclosed⟩ d') ∧
    ∀ e d', (lowerLines lines).run d = .error e d' → e.cause = .unclosed →
      lastNumber? lines = some e.line ∧
        ∃ header after, Asks 0 lines d header after ∧ RunsOut header after := by
  refine ⟨fun depth header after h hr => h.unclosed hr, fun e d' h he => ?_⟩
  obtain ⟨header, after, ha, hr⟩ := asks_of_unclosed h he
  obtain ⟨_, n, d₁, hn, hd₁⟩ := ha.unclosed hr
  rw [h] at hd₁
  cases hd₁
  exact ⟨hn, header, after, ha, hr⟩

theorem unclosed_around_closed :
    let header : Line := ⟨1, ["if", "(", "1", ")", openBrace]⟩
    let following : List Line := [⟨2, ["while", "(", "2", ")", openBrace, "x", "=", "3", closeBrace, "print",
      "(", "x", ")"]⟩, ⟨4, []⟩]
    RunsOut ⟨1, [openBrace]⟩ following ∧ Asks 0 (header :: following) {} ⟨1, [openBrace]⟩ following ∧
      ∃ d', (lowerLines (header :: following)).run {} = .error ⟨4, .unclosed⟩ d' := by
  intro header following
  have hc : (lowerExpr ["1"]).run { ifs := 1 } = .ok (.literal 1) { ifs := 1 } := by cbv
  have hout : RunsOut ⟨1, [openBrace]⟩ following :=
    ⟨⟨1, [openBrace]⟩, [], following, _, rfl, rfl, .inl ⟨rfl, rfl⟩⟩
  have hasks : Asks 0 (header :: following) {} ⟨1, [openBrace]⟩ following :=
    .here ⟨["(", "1", ")", openBrace], ["1"], .literal 1, { ifs := 1 }, rfl, rfl, hc, rfl⟩
  obtain ⟨_, n, d', hn, hd'⟩ := (unclosed_of_lowerLines (header :: following) {}).1 0 _ _ hasks hout
  obtain rfl : n = 4 := by simpa [lastNumber?, header, following] using hn.symm
  exact ⟨hout, hasks, d', hd'⟩

end SlotCompiler
