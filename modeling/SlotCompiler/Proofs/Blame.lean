import SlotCompiler.Proofs.Interruption
import SlotCompiler.Proofs.Renumbering

/-!
# What a rejected source is blamed on

Bodies of blocks are lines cut out of other lines, and keep their numbers. So a failure in them is still
blamed on a line of the source that holds a token. Only a block that never closes can be blamed on a
line without one, the last: `blame_of_lowerLines`, and for whole sources `blame_of_compile`.
-/

namespace SlotCompiler

/-- A line with this number holds a token. -/
def Held (lines : List Line) (n : Nat) : Prop := ∃ line ∈ lines, line.tokens ≠ [] ∧ line.number = n

def lastNumber? (lines : List Line) : Option Nat := lines.getLast?.map Line.number

/-- The lines end inside of a block. -/
structure LeftOpen (lines : List Line) (e : SyntaxError) : Prop where
  cause : e.cause = .unclosed
  last : lastNumber? lines = some e.line
  braces : 0 < braces (allTokens lines)

section
variable {lines following : List Line} {line : Line} {n : Nat}

theorem held_cons (h : Held following n) : Held (line :: following) n := by
  obtain ⟨l, hl, ht, hn⟩ := h
  exact ⟨l, List.mem_cons_of_mem _ hl, ht, hn⟩

theorem held_head (h : line.tokens ≠ []) : Held (line :: following) line.number :=
  ⟨line, List.mem_cons_self .., h, rfl⟩

/-- Tokens that are put back in front of a line make no line hold less. -/
theorem Held.extend {ts : List Token} (h : Held (⟨line.number, ts⟩ :: following) n)
    (hne : line.tokens ≠ []) : Held (line :: following) n := by
  obtain ⟨l, hl, ht, hn⟩ := h
  rcases List.mem_cons.mp hl with rfl | hl
  · exact ⟨line, List.mem_cons_self .., hne, hn⟩
  · exact ⟨l, List.mem_cons_of_mem _ hl, ht, hn⟩

theorem lastNumber?_cons_cons (next : Line) :
    lastNumber? (line :: next :: following) = lastNumber? (next :: following) := by
  unfold lastNumber?
  rw [List.getLast?_cons_cons]

theorem lastNumber?_cons (ts : List Token) :
    lastNumber? (⟨line.number, ts⟩ :: following) = lastNumber? (line :: following) := by
  cases following with
  | nil => rfl
  | cons next following => rw [lastNumber?_cons_cons, lastNumber?_cons_cons]

end

/-! ## Failing cuts -/

section
variable {s s' : Scan} {line header : Line} {following : List Line} {ts : List Token} {e : SyntaxError}

theorem Scan.depth_of_line (h : s.line ts = .inside s') : (s'.depth : Int) = s.depth + braces ts := by
  induction ts generalizing s with
  | nil => cases h; simp
  | cons t ts ih =>
    unfold line at h
    split at h
    · cases h
    · rename_i hc
      split at h
      · cases h
      · have hdepth := ih (Slice.cons_eq_inside.mp h)
        rw [hdepth, braces_cons t ts, ← Int.add_assoc]
        congr 1
        by_cases ho : t = openBrace
        · subst ho
          rw [braces_openBrace]
          simp [next]
        · by_cases hcl : t = closeBrace
          · subst hcl
            have hpos : s.depth ≠ 0 := fun h0 => hc ⟨rfl, h0⟩
            rw [braces_closeBrace]
            simp only [next, if_neg ho, if_pos]
            omega
          · simp [next, braces, ho, hcl]

theorem Block.blame_of_scan (h : scan s line following = .error e) :
    Held (line :: following) e.line ∨ e.cause = .unclosed ∧ lastNumber? (line :: following) = some e.line ∧
      0 ≤ s.depth + braces (allTokens (line :: following)) := by
  induction following generalizing s line with
  | nil =>
    unfold scan at h
    split at h
    · rename_i hl
      cases h
      left
      apply held_head
      intro hnil
      rw [hnil] at hl
      cases hl
    · cases h
    · rename_i s' hl
      cases h
      right
      refine ⟨rfl, rfl, ?_⟩
      have hdepth := Scan.depth_of_line hl
      simp only [allTokens, List.flatMap_cons, List.flatMap_nil, List.append_nil]
      omega
  | cons next following ih =>
    unfold scan at h
    split at h
    · rename_i hl
      cases h
      left
      apply held_head
      intro hnil
      rw [hnil] at hl
      cases hl
    · cases h
    · rename_i s' hl
      simp only at h
      cases hs : scan { s' with fresh := true } next following with
      | ok b => rw [hs] at h; cases h
      | error e' =>
        rw [hs] at h
        cases h
        rcases ih hs with hheld | ⟨hcause, hlast, hbraces⟩
        · exact .inl (held_cons hheld)
        · right
          refine ⟨hcause, by rw [lastNumber?_cons_cons, hlast], ?_⟩
          have hdepth := Scan.depth_of_line hl
          rw [allTokens_cons, braces_append]
          simp only at hbraces
          omega

theorem Block.blame_of_openAt {n : Nat} (h : openAt n line following = .error e) :
    e.line = n ∨ Held (line :: following) e.line ∨ LeftOpen (line :: following) e := by
  unfold openAt at h
  split at h
  · cases h
    exact .inl rfl
  · rename_i t ts ht
    split at h
    · rename_i ho
      right
      have hne : line.tokens ≠ [] := by simp [ht]
      rcases blame_of_scan h with hheld | ⟨hcause, hlast, hbraces⟩
      · exact .inl (hheld.extend hne)
      · refine .inr ⟨hcause, by rwa [lastNumber?_cons] at hlast, ?_⟩
        rw [allTokens_cons] at hbraces ⊢
        rw [ht, ho, List.cons_append, braces_cons, braces_openBrace]
        simp only at hbraces
        omega
    · cases h
      exact .inl rfl

theorem Block.blame_of_cut (h : cut header following = .error e) :
    e.line = header.number ∨ Held (header :: following) e.line ∨ LeftOpen (header :: following) e := by
  unfold cut at h
  split at h
  · cases h
    exact .inl rfl
  · rename_i next following hh
    rcases blame_of_openAt h with hline | hheld | hopen
    · exact .inl hline
    · exact .inr (.inl (held_cons hheld))
    · refine .inr (.inr ⟨hopen.cause, by rw [lastNumber?_cons_cons, hopen.last], ?_⟩)
      rw [allTokens_cons, hh]
      exact hopen.braces
  · exact blame_of_openAt h

end

/-! ## Lines that are cut -/

section
variable {lines following : List Line} {header : Line} {b : Block} {n : Nat}

theorem Splits.held_of_body (h : Splits lines b) (hn : Held b.body n) : Held lines n := by
  induction h with
  | @here line body rest after ht =>
    obtain ⟨l, hl, _, rfl⟩ := hn
    obtain rfl : l = ⟨line.number, body⟩ := by simpa [Block.closedAt] using hl
    exact held_head (by simp [ht])
  | next _ ih =>
    obtain ⟨l, hl, ht, hln⟩ := hn
    rcases List.mem_cons.mp hl with rfl | hl
    · exact ⟨l, List.mem_cons_self .., ht, hln⟩
    · exact held_cons (ih ⟨l, hl, ht, hln⟩)

-- The last line of a body is where the block closes, so there is a brace on it.
theorem Splits.held_of_last (h : Splits lines b) (hn : lastNumber? b.body = some n) : Held lines n := by
  induction h with
  | @here line body rest after ht =>
    obtain rfl : line.number = n := by simpa [lastNumber?, Block.closedAt] using hn
    exact held_head (by simp [ht])
  | @next line lines b hs ih =>
    apply held_cons
    apply ih
    obtain ⟨first, more, hbody⟩ : ∃ first more, b.body = first :: more := by
      cases hs <;> exact ⟨_, _, rfl⟩
    rw [hbody] at hn ⊢
    rwa [lastNumber?_cons_cons] at hn

theorem Splits.held_of_remaining (h : Splits lines b) (hn : Held b.remaining n) : Held lines n := by
  induction h with
  | @here line body rest after ht =>
    obtain ⟨l, hl, hne, rfl⟩ := hn
    rcases List.mem_append.mp hl with hl | hl
    · have hline : l.number = line.number := by
        unfold Block.closedAt at hl
        by_cases hr : rest = []
        · simp [hr] at hl
        · have : l = ⟨line.number, rest⟩ := by simpa [hr] using hl
          rw [this]
      rw [hline]
      exact held_head (by simp [ht])
    · exact ⟨l, List.mem_cons_of_mem _ hl, hne, rfl⟩
  | next _ ih => exact held_cons (ih hn)

theorem Splits.last_of_remaining (h : Splits lines b) (hn : lastNumber? b.remaining = some n) :
    lastNumber? lines = some n := by
  induction h with
  | @here line body rest after ht =>
    by_cases hr : rest = []
    · have hafter : lastNumber? after = some n := by
        simpa [Block.closedAt, Block.remaining, hr] using hn
      cases after with
      | nil => cases hafter
      | cons next after => rw [lastNumber?_cons_cons, hafter]
    · have hrest : lastNumber? (⟨line.number, rest⟩ :: after) = some n := by
        simpa [Block.closedAt, Block.remaining, hr] using hn
      rwa [lastNumber?_cons] at hrest
  | @next line lines b hs ih =>
    have hlines := ih hn
    cases lines with
    | nil => cases hs
    | cons next lines => rw [lastNumber?_cons_cons, hlines]

theorem held_of_cut (h : Block.cut header following = .ok b)
    (hn : Held b.body n ∨ lastNumber? b.body = some n ∨ Held b.remaining n) :
    Held (header :: following) n := by
  obtain ⟨line, ts, after, ht, hs, hline⟩ := splits_of_cut h
  have hsplit : Held (⟨line.number, ts⟩ :: after) n := by
    rcases hn with hn | hn | hn
    · exact hs.held_of_body hn
    · exact hs.held_of_last hn
    · exact hs.held_of_remaining hn
  have hheld : Held (line :: after) n := hsplit.extend (by simp [ht])
  rcases hline with ⟨rfl, rfl⟩ | ⟨_, rfl⟩
  · exact hheld
  · exact held_cons hheld

theorem last_of_cut (h : Block.cut header following = .ok b) (hn : lastNumber? b.remaining = some n) :
    lastNumber? (header :: following) = some n := by
  obtain ⟨line, ts, after, _, hs, hline⟩ := splits_of_cut h
  have hlast := hs.last_of_remaining hn
  rw [lastNumber?_cons] at hlast
  rcases hline with ⟨rfl, rfl⟩ | ⟨_, rfl⟩
  · exact hlast
  · rw [lastNumber?_cons_cons, hlast]

end

/-! ## Failing statements -/

section
variable {line : Line} {following : List Line} {c : Control} {tokens : List Token} {d d' : Draft}
  {e : SyntaxError}

theorem line_of_atLine {α : Type} {n : Nat} {x : EStateM Cause Draft α}
    (h : (atLine n x).run d = .error e d') : e.line = n := by
  rw [atLine, EStateM.run_adaptExcept] at h
  cases hx : x.run d with
  | ok a d₁ => rw [hx] at h; cases h
  | error c d₁ => rw [hx] at h; cases h; rfl

/-- A statement with a block fails in its header, in the cut of its block, in the body or behind it. -/
theorem lowerLines_control_blame (hf : Form.ofTokens line.tokens = .ok (.control c tokens))
    (h : (lowerLines (line :: following)).run d = .error e d') :
    e.line = line.number ∨ ∃ cond rest v d₁ d₂, group? tokens = some (cond, rest) ∧
      (lowerExpr cond).run d₁ = .ok v d₂ ∧
      (Block.cut ⟨line.number, rest⟩ following = .error e ∨
      ∃ block, Block.cut ⟨line.number, rest⟩ following = .ok block ∧
        ((∃ d₃, (lowerLines block.body).run d₃ = .error e d') ∨
        ∃ d₃ d₄ d₅, (lowerLines block.body).run d₃ = .ok () d₄ ∧
          (lowerLines block.remaining).run d₅ = .error e d')) := by
  simp only [lowerLines_cons, hf] at h
  rw [run_bind_of_ok (c.fresh_run d), run_bind_of_ok (emit_run ..)] at h
  split at h
  · cases h
    exact .inl rfl
  · rename_i cond rest hg
    rcases run_bind_error h with h | ⟨_, d₁, ht, h⟩
    · exact .inl (line_of_atLine h)
    · obtain ⟨v, d₂, hv, _⟩ := run_bind_ok (run_atLine_ok ht)
      refine .inr ⟨cond, rest, v, _, d₂, hg, hv, ?_⟩
      split at h
      · rename_i e' hb
        cases h
        exact .inl hb
      · rename_i block hb
        refine .inr ⟨block, hb, ?_⟩
        rcases run_bind_error h with h | ⟨_, d₃, hbody, h⟩
        · exact .inl ⟨_, h⟩
        · rw [run_bind_of_ok (emit_run ..)] at h
          exact .inr ⟨_, d₃, _, hbody, h⟩

end

/-- A failure is blamed on a line that holds a token, or on the last line if that is inside of a block. -/
theorem blame_of_lowerLines {lines : List Line} {d d' : Draft} {e : SyntaxError}
    (h : (lowerLines lines).run d = .error e d') : Held lines e.line ∨ LeftOpen lines e := by
  -- A line in front that lowers on its own changes neither alternative.
  have skip : ∀ {line : Line} {following : List Line}, braces line.tokens = 0 →
      Held following e.line ∨ LeftOpen following e →
      Held (line :: following) e.line ∨ LeftOpen (line :: following) e := by
    intro line following hbraces hfollowing
    rcases hfollowing with hheld | hopen
    · exact .inl (held_cons hheld)
    · refine .inr ⟨hopen.cause, ?_, ?_⟩
      · cases following with
        | nil => exact absurd hopen.last nofun
        | cons next following => rw [lastNumber?_cons_cons, hopen.last]
      · rw [allTokens_cons, braces_append, hbraces, Int.zero_add]
        exact hopen.braces
  induction lines using lowerLines.induct generalizing d d' with
  | case1 => rw [lowerLines_nil] at h; cases h
  | case2 line following c hf =>
    simp only [lowerLines_cons, hf] at h
    cases h
    left
    apply held_head
    intro hnil
    rw [hnil] at hf
    cases hf
  | case3 line following hf ih =>
    simp only [lowerLines_cons, hf] at h
    apply skip
    · rw [Form.eq_of_blank hf, braces_nil]
    · exact ih h
  | case4 line following expr hf ih =>
    simp only [lowerLines_cons, hf] at h
    have hline := Form.eq_of_print hf
    rcases run_bind_error h with h | ⟨_, _, hp, h⟩
    · left
      rw [line_of_atLine h]
      exact held_head (by simp [hline])
    · apply skip
      · rw [hline]
        exact braces_plain (plain_of_lowerPrint (run_atLine_ok hp))
      · exact ih h
  | case5 line following x expr hf ih =>
    simp only [lowerLines_cons, hf] at h
    have hline := Form.eq_of_assign hf
    rcases run_bind_error h with h | ⟨_, _, hp, h⟩
    · left
      rw [line_of_atLine h]
      exact held_head (by simp [hline])
    · apply skip
      · rw [hline]
        exact braces_plain (plain_of_lowerAssign (run_atLine_ok hp))
      · exact ih h
  | case6 line following c tokens hf ihb ihr =>
    have hne : line.tokens ≠ [] := by simp [Form.eq_of_control hf]
    rcases lowerLines_control_blame hf h with hline | ⟨cond, rest, v, d₁, d₂, hg, hv, h⟩
    · left
      rw [hline]
      exact held_head hne
    have htokens : allTokens (line :: following) =
        (c.keyword :: "(" :: (cond ++ [")"])) ++ allTokens (⟨line.number, rest⟩ :: following) := by
      simp [Form.eq_of_control hf, eq_of_group? hg]
    have hbraces : braces (allTokens (line :: following)) =
        braces (allTokens (⟨line.number, rest⟩ :: following)) := by
      rw [htokens, braces_append, braces_header c (plain_of_lowerExpr hv), Int.zero_add]
    rcases h with hcut | ⟨block, hcut, ⟨d₃, hbody⟩ | ⟨d₃, d₄, d₅, hbody, hrest⟩⟩
    · rcases Block.blame_of_cut hcut with hline | hheld | hopen
      · left
        rw [hline]
        exact held_head hne
      · exact .inl (hheld.extend hne)
      · refine .inr ⟨hopen.cause, ?_, ?_⟩
        · rw [← lastNumber?_cons rest, hopen.last]
        · rw [hbraces]
          exact hopen.braces
    · -- Inside of the body, even its last line holds a token of the source.
      left
      rcases ihb cond rest hg block hcut hbody with hheld | hopen
      · exact (held_of_cut hcut (.inl hheld)).extend hne
      · exact (held_of_cut hcut (.inr (.inl hopen.last))).extend hne
    · rcases ihr cond rest hg block hcut hrest with hheld | hopen
      · exact .inl ((held_of_cut hcut (.inr (.inr hheld))).extend hne)
      · refine .inr ⟨hopen.cause, ?_, ?_⟩
        · rw [← lastNumber?_cons rest, last_of_cut hcut hopen.last]
        · rw [hbraces, allTokens_of_cut hcut, braces_cons, braces_append, braces_cons closeBrace,
            braces_openBrace, braces_closeBrace, braces_of_lowerLines hbody]
          have hpos := hopen.braces
          omega

/-! ## Sources -/

section
variable {source : String} {n k : Nat} {ls : List (List Token)}

theorem mem_numberLines {line : Line} (h : line ∈ numberLines n ls) :
    n ≤ line.number ∧ ls[line.number - n]? = some line.tokens := by
  induction ls generalizing n with
  | nil => cases h
  | cons ts ls ih =>
    rcases List.mem_cons.mp h with rfl | h
    · simp
    · obtain ⟨hle, hget⟩ := ih h
      have hsub : line.number - n = line.number - (n + 1) + 1 := by omega
      rw [hsub, List.getElem?_cons_succ]
      exact ⟨by omega, hget⟩

theorem lastNumber?_numberLines (h : lastNumber? (numberLines n ls) = some k) :
    n ≤ k ∧ k + 1 = n + ls.length := by
  induction ls generalizing n with
  | nil => cases h
  | cons ts ls ih =>
    cases ls with
    | nil =>
      cases h
      exact ⟨Nat.le_refl _, rfl⟩
    | cons us ls =>
      obtain ⟨hle, hlast⟩ := ih (n := n + 1) (by rwa [numberLines, numberLines, lastNumber?_cons_cons] at h)
      rw [hlast, List.length_cons (a := ts)]
      omega

theorem blame_of_lowerSource {e : SyntaxError} (h : lowerSource source = .error e) :
    1 ≤ e.line ∧ e.line ≤ (splitLines source.toList).length ∧
      ((∃ text, (splitLines source.toList)[e.line - 1]? = some text ∧ dropComment (lexChars text) ≠ []) ∨
        e.line = (splitLines source.toList).length ∧ e.cause = .unclosed ∧
          0 < braces (allTokens (readLines source))) := by
  obtain ⟨d, hd⟩ : ∃ d, (lowerLines (readLines source)).run (Draft.hoist {} (readLines source)) =
      .error e d := by
    unfold lowerSource lowerProgram at h
    split at h
    · cases h
    · rename_i e' d hd
      cases h
      exact ⟨d, hd⟩
  rcases blame_of_lowerLines hd with ⟨line, hl, hne, hline⟩ | hopen
  · obtain ⟨hle, hget⟩ := mem_numberLines hl
    rw [hline, List.getElem?_map, Option.map_eq_some_iff] at hget
    obtain ⟨text, htext, htokens⟩ := hget
    have hlt := (List.getElem?_eq_some_iff.mp htext).1
    refine ⟨by omega, by omega, .inl ⟨text, htext, ?_⟩⟩
    rwa [htokens]
  · obtain ⟨hle, hlast⟩ := lastNumber?_numberLines hopen.last
    rw [List.length_map] at hlast
    exact ⟨hle, by omega, .inr ⟨by omega, hopen.cause, hopen.braces⟩⟩

theorem lowerSource_of_no_tokens (h : allTokens (readLines source) = []) : lowerSource source = .ok [] := by
  unfold lowerSource
  rw [← List.append_nil (readLines source), lowerProgram_blank_append (List.flatMap_eq_nil_iff.mp h)]
  unfold lowerProgram
  rw [lowerLines_nil]
  rfl

end

/-- A rejected source is blamed on one of its lines, one with a token or, where a block is still open at
the end, the last. A source without tokens is accepted and has no code. -/
theorem blame_of_compile :
    (∀ source n, (compile source).verdict = .rejected n →
      (compile source).text = errorModule n ∧ 1 ≤ n ∧ n ≤ (splitLines source.toList).length ∧
        ((∃ text, (splitLines source.toList)[n - 1]? = some text ∧ dropComment (lexChars text) ≠ []) ∨
          n = (splitLines source.toList).length ∧ lowerSource source = .error ⟨n, .unclosed⟩ ∧
            0 < braces (allTokens (readLines source)))) ∧
    ∀ source, allTokens (readLines source) = [] →
      lowerSource source = .ok [] ∧ compile source = ⟨moduleText [], .accepted⟩ := by
  constructor
  · intro source n h
    obtain ⟨e, he, rfl⟩ : ∃ e, lowerSource source = .error e ∧ e.line = n := by
      unfold compile at h
      split at h
      · cases h
      · rename_i e he
        cases h
        exact ⟨e, he, rfl⟩
    obtain ⟨hpos, hle, hblame⟩ := blame_of_lowerSource he
    refine ⟨by rw [compile, he], hpos, hle, ?_⟩
    rcases hblame with hheld | ⟨hlast, hcause, hbraces⟩
    · exact .inl hheld
    · refine .inr ⟨hlast, ?_, hbraces⟩
      rw [he, ← hcause]
  · intro source h
    have hcode := lowerSource_of_no_tokens h
    exact ⟨hcode, by rw [compile, hcode]⟩

theorem blame_unclosed_loop :
    (compile "while (1) \x7b\n x = 1\n\n").verdict = .rejected 3 ∧
      (compile "while (1) \x7b\n x = 1\n\n").text = errorModule 3 ∧
      lowerSource "# \x7b\n\n  # none" = .ok [] := by
  have hopen : (compile "while (1) \x7b\n x = 1\n\n").verdict = .rejected 3 := by decide +kernel
  have hblank : allTokens (readLines "# \x7b\n\n  # none") = [] := by decide +kernel
  exact ⟨hopen, (blame_of_compile.1 _ 3 hopen).1, (blame_of_compile.2 _ hblank).1⟩

end SlotCompiler
