import SlotCompiler.Proofs.Interruption
import SlotCompiler.Proofs.Nesting

/-!
# Lines behind lines

Each header is handed all the lines that follow it, but takes no more of them than its block. So lines
that are accepted are lowered alike whatever stands behind them, and so are lines that are rejected,
unless it was for want of a brace that lines to come may bring.
-/

namespace SlotCompiler

/-- The failure is not for want of a brace that lines to come may bring. -/
def Cause.Final (c : Cause) : Prop := c ≠ .opener ∧ c ≠ .unclosed

/-! ## Blocks -/

section
variable {s : Scan} {line header : Line} {following lines : List Line} {e : SyntaxError}

theorem Block.scan_append_error (h : scan s line following = .error e) (hf : e.cause.Final) :
    scan s line (following ++ lines) = .error e := by
  induction following generalizing s line with
  | nil =>
    rw [scan] at h
    rw [scan.eq_def]
    split at h
    · exact h
    · cases h
    · cases h
      exact absurd rfl hf.2
  | cons next following ih =>
    rw [scan] at h
    rw [scan.eq_def]
    split at h
    · exact h
    · cases h
    · rename_i s' hl
      cases hb : scan { s' with fresh := true } next following with
      | ok b => simp only [hb, Except.map] at h; cases h
      | error e' =>
        simp only [hb, Except.map] at h
        cases h
        simp only [List.cons_append, ih hb, Except.map]

theorem Block.openAt_append_error {n : Nat} (h : openAt n line following = .error e) (hf : e.cause.Final) :
    openAt n line (following ++ lines) = .error e := by
  unfold openAt at h ⊢
  split at h
  · exact h
  · split at h
    · rename_i ho
      simp only [if_pos ho]
      exact scan_append_error h hf
    · rename_i ho
      simp only [if_neg ho]
      exact h

theorem Block.cut_append_error (h : cut header following = .error e) (hf : e.cause.Final) :
    cut header (following ++ lines) = .error e := by
  unfold cut at h
  split at h
  · cases h
    exact absurd rfl hf.1
  · rename_i next following hh
    simp only [cut, hh, List.cons_append]
    exact openAt_append_error h hf
  · rename_i t ts _ hh
    simp only [cut, hh]
    exact openAt_append_error h hf

end

/-! ## Statements -/

theorem run_lowerLines_append_error {lines : List Line} (more : List Line) {d d' : Draft} {e : SyntaxError}
    (h : (lowerLines lines).run d = .error e d') (hf : e.cause.Final) :
    (lowerLines (lines ++ more)).run d = .error e d' := by
  induction lines using lowerLines.induct generalizing d d' with
  | case1 => rw [lowerLines_nil] at h; cases h
  | case2 line following c hs =>
    simp only [List.cons_append, lowerLines_cons, hs] at h ⊢
    exact h
  | case3 line following hs ih =>
    simp only [List.cons_append, lowerLines_cons, hs] at h ⊢
    exact ih h
  | case4 line following expr hs ih =>
    simp only [List.cons_append, lowerLines_cons, hs] at h ⊢
    rcases run_bind_error h with hp | ⟨_, d₁, hp, h⟩
    · exact run_bind_of_error hp
    · rw [run_bind_of_ok hp]
      exact ih h
  | case5 line following x expr hs ih =>
    simp only [List.cons_append, lowerLines_cons, hs] at h ⊢
    rcases run_bind_error h with hp | ⟨_, d₁, hp, h⟩
    · exact run_bind_of_error hp
    · rw [run_bind_of_ok hp]
      exact ih h
  | case6 line following c tokens hs _ ihr =>
    simp only [List.cons_append, lowerLines_cons, hs] at h ⊢
    rw [run_bind_of_ok (c.fresh_run d), run_bind_of_ok (emit_run ..)] at h ⊢
    cases hg : group? tokens with
    | none =>
      simp only [hg] at h ⊢
      exact h
    | some parts =>
      obtain ⟨cond, rest⟩ := parts
      simp only [hg] at h ⊢
      rcases run_bind_error h with ht | ⟨_, d₁, ht, h⟩
      · exact run_bind_of_error ht
      rw [run_bind_of_ok ht]
      cases hb : Block.cut ⟨line.number, rest⟩ following with
      | error e' =>
        rw [hb] at h
        cases h
        rw [Block.cut_append_error hb hf]
        rfl
      | ok b =>
        rw [hb] at h
        rw [Block.cut_append hb]
        rcases run_bind_error h with hbody | ⟨_, d₂, hbody, h⟩
        -- The body is the same one, and so is its failure.
        · exact run_bind_of_error hbody
        · show (lowerLines b.body >>= _).run d₁ = _
          rw [run_bind_of_ok (emit_run ..)] at h
          rw [run_bind_of_ok hbody, run_bind_of_ok (emit_run ..), Block.remaining_extend]
          exact ihr cond rest hg b hb h

/-- Lines behind others: where those are accepted, they are lowered from the draft that those lead to;
where those are rejected, and not for want of a brace, they are not looked at. -/
theorem lowerLines_append (lines more : List Line) (d : Draft) :
    (∀ d', (lowerLines lines).run d = .ok () d' →
      (lowerLines (lines ++ more)).run d = (lowerLines more).run d') ∧
    ∀ e d', (lowerLines lines).run d = .error e d' → e.cause.Final →
      (lowerLines (lines ++ more)).run d = .error e d' :=
  ⟨fun _ h => run_lowerLines_append more h, fun _ _ h hf => run_lowerLines_append_error more h hf⟩

theorem lowerLines_append_remainder :
    let lines : List Line := [⟨1, ["if", "(", "1", ")"]⟩,
      ⟨2, [openBrace, "x", "=", "2", closeBrace, "print", "(", "x", ")"]⟩]
    let more : List Line := [⟨3, ["y", "=", "3"]⟩, ⟨4, ["z", "=", closeBrace]⟩]
    let d' : Draft := ⟨2, 1, 0, 0, ["x"],
      [.test 1 .nonzero (.literal 1), .branch 1 (.ifBody 0) (.ifEnd 0), .label (.ifBody 0),
       .alloca (.var "x"), .store (.literal 0) (.var "x"), .store (.literal 2) (.var "x"),
       .jump (.ifEnd 0), .label (.ifEnd 0), .load 2 (.var "x"), .print (.temp 2)]⟩
    (lowerLines lines).run {} = .ok () d' ∧ ∃ d'', (lowerLines more).run d' = .error ⟨4, .name⟩ d'' ∧
      (lowerLines (lines ++ more)).run {} = .error ⟨4, .name⟩ d'' := by
  intro lines more d'
  have hl : (lowerLines lines).run {} = .ok () d' := by cbv
  obtain ⟨d'', hm⟩ : ∃ d'', (lowerLines more).run d' = .error ⟨4, .name⟩ d'' := ⟨_, by cbv⟩
  exact ⟨hl, d'', hm, by rw [(lowerLines_append lines more {}).1 _ hl, hm]⟩

end SlotCompiler
