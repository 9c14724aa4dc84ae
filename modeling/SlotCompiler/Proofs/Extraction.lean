import SlotCompiler.Proofs.Blame
import SlotCompiler.Proofs.Delimiters

/-!
# Blocks are cut out exactly

Cutting a block loses no token and no line. The lines that a block runs over are the lines of its body
again, once the opening brace is put back in front of the first, and the closing brace with what stands
behind it at the end of the last: `exact_of_cut`. In between, the scan counts every brace, so that the
two that are taken off belong together.
-/

namespace SlotCompiler

/-! ## Braces of a body -/

section
variable {s s' : Scan} {ts us body rest : List Token} {line header : Line} {ls following : List Line}
  {b : Block}

theorem Scan.inside_of_append (h : s.line (ts ++ us) = .inside s') : ∃ s₁, s.line ts = .inside s₁ := by
  induction ts generalizing s with
  | nil => exact ⟨s, rfl⟩
  | cons t ts ih =>
    rw [List.cons_append, line] at h
    split at h
    · cases h
    · rename_i hc
      split at h
      · cases h
      · rename_i ho
        obtain ⟨s₁, hs⟩ := ih (Slice.cons_eq_inside.mp h)
        exact ⟨s₁, by rw [line_cons hc ho, Slice.cons_eq_inside, hs]⟩

theorem Scan.inside_of_closed (h : s.line ts = .closed body rest) :
    ∃ s', s.line body = .inside s' ∧ s'.depth = 0 := by
  induction ts generalizing s body with
  | nil => cases h
  | cons t ts ih =>
    rw [line] at h
    split at h
    · rename_i hc
      cases h
      exact ⟨s, rfl, hc.2⟩
    · rename_i hc
      split at h
      · cases h
      · rename_i ho
        cases hl : (s.next t).line ts with
        | inside s₁ => rw [hl] at h; cases h
        | stray => rw [hl] at h; cases h
        | closed body' rest' =>
          rw [hl] at h
          cases h
          obtain ⟨s', hs, hd⟩ := ih hl
          exact ⟨s', by rw [line_cons hc ho, Slice.cons_eq_inside, hs], hd⟩

theorem Scan.lines_of_closed (h : s.line ts = .closed body rest) (n : Nat) :
    ∃ s', s.lines [⟨n, body⟩] = .inside s' ∧ s'.depth = 0 := by
  obtain ⟨s', hs, hd⟩ := inside_of_closed h
  exact ⟨{ s' with fresh := true }, lines_cons_inside hs, hd⟩

theorem Scan.depth_of_lines (h : s.lines ls = .inside s') :
    (s'.depth : Int) = s.depth + braces (allTokens ls) := by
  induction ls generalizing s with
  | nil => cases h; simp
  | cons line ls ih =>
    obtain ⟨s₁, hl, hs⟩ := inside_of_lines_cons h
    have hline := depth_of_line hl
    have hrest := ih hs
    rw [allTokens_cons, braces_append]
    simp only at hrest
    omega

theorem Scan.covered_of_lines (h : s.lines ls = .inside s') (hus : us <+: allTokens ls) :
    0 ≤ s.depth + braces us := by
  induction ls generalizing s us with
  | nil => rw [List.prefix_nil.mp hus]; simp
  | cons line ls ih =>
    obtain ⟨s₁, hl, hs⟩ := inside_of_lines_cons h
    rw [allTokens_cons] at hus
    rcases List.prefix_or_prefix_of_prefix hus (List.prefix_append line.tokens (allTokens ls)) with hu | hu
    · obtain ⟨vs, hvs⟩ := hu
      obtain ⟨s₂, hs₂⟩ := inside_of_append (hvs ▸ hl)
      have hdepth := depth_of_line hs₂
      omega
    · obtain ⟨vs, rfl⟩ := hu
      have hline := depth_of_line hl
      have hrest := ih hs ((List.prefix_append_right_inj line.tokens).mp hus)
      rw [braces_append]
      simp only at hrest
      omega

theorem Block.scan_cases (h : scan s line following = .ok b) :
    (∃ ts us, s.line line.tokens = .closed ts us ∧ b = closedAt line.number ts us following) ∨
      ∃ s₁ next after b', s.line line.tokens = .inside s₁ ∧ following = next :: after ∧
        scan { s₁ with fresh := true } next after = .ok b' ∧ b = { b' with body := line :: b'.body } := by
  rw [scan.eq_def] at h
  split at h
  · cases h
  · rename_i ts us hl
    cases h
    exact .inl ⟨ts, us, hl, rfl⟩
  · rename_i s₁ hl
    cases following with
    | nil => cases h
    | cons next after =>
      simp only at h
      cases hb : scan { s₁ with fresh := true } next after with
      | error e => rw [hb] at h; cases h
      | ok b' =>
        rw [hb] at h
        cases h
        exact .inr ⟨s₁, next, after, b', hl, rfl, hb, rfl⟩

theorem Block.lines_of_scan (h : scan s line following = .ok b) :
    ∃ s', s.lines b.body = .inside s' ∧ s'.depth = 0 := by
  induction following generalizing s line b with
  | nil =>
    obtain ⟨ts, us, hl, rfl⟩ | ⟨_, _, _, _, _, hf, _⟩ := scan_cases h
    · exact Scan.lines_of_closed hl line.number
    · cases hf
  | cons next following ih =>
    obtain ⟨ts, us, hl, rfl⟩ | ⟨s₁, _, _, b', hl, hf, hb, rfl⟩ := scan_cases h
    · exact Scan.lines_of_closed hl line.number
    · cases hf
      obtain ⟨s', hs, hd⟩ := ih hb
      exact ⟨s', by rw [Scan.lines_cons_inside hl, hs], hd⟩

theorem balanced_of_cut (h : Block.cut header following = .ok b) :
    Balanced openBrace closeBrace (allTokens b.body) := by
  obtain ⟨line, ts, after, _, hscan, _⟩ := cut_eq_ok_iff.mp h
  obtain ⟨s', hs, hd⟩ := Block.lines_of_scan hscan
  refine ⟨fun us hus => ?_, ?_⟩
  · have hcovered := Scan.covered_of_lines hs hus
    simp only [braces] at hcovered
    omega
  · have hdepth := Scan.depth_of_lines hs
    simp only [braces] at hdepth
    omega

end

/-! ## Lines of a block -/

section
variable {lines following front : List Line} {header : Line} {b : Block}

theorem Splits.exists_last (h : Splits lines b) : ∃ init last ts us,
    lines = init ++ last :: b.after ∧ last.tokens = ts ++ closeBrace :: us ∧
      b.body = init ++ [⟨last.number, ts⟩] ∧ b.rest = if us = [] then none else some ⟨last.number, us⟩ := by
  induction h with
  | @here line body rest after ht => exact ⟨[], line, body, rest, rfl, ht, rfl, rfl⟩
  | @next line lines b _ ih =>
    obtain ⟨init, last, ts, us, hlines, ht, hbody, hrest⟩ := ih
    exact ⟨line :: init, last, ts, us, by rw [hlines]; rfl, ht, by rw [hbody]; rfl, hrest⟩

/-- The lines that the block of a header runs over, from the one with its opening brace on. -/
def Block.span (b : Block) (header : Line) (following : List Line) : List Line :=
  (if header.isBlank then [] else [header]) ++ following.take (b.consumed following)

theorem Block.take_consumed (h : following = front ++ b.after) :
    following.take (b.consumed following) = front := by
  rw [consumed, h]
  simp

theorem Block.drop_consumed (h : following = front ++ b.after) :
    following.drop (b.consumed following) = b.after := by
  rw [consumed, h]
  simp

theorem span_of_cut (h : Block.cut header following = .ok b) : ∃ first ts used,
    first.tokens = openBrace :: ts ∧ Splits (⟨first.number, ts⟩ :: (used ++ b.after)) b ∧
      b.span header following = first :: used ∧ following.drop (b.consumed following) = b.after := by
  obtain ⟨first, ts, after, ht, hs, hline⟩ := splits_of_cut h
  obtain ⟨used, rfl⟩ : ∃ used, after = used ++ b.after := by
    obtain ⟨init, last, _, _, hlines, _⟩ := hs.exists_last
    cases init with
    | nil => cases hlines; exact ⟨[], rfl⟩
    | cons _ init => cases hlines; exact ⟨init ++ [last], by simp⟩
  refine ⟨first, ts, used, ht, hs, ?_⟩
  rcases hline with ⟨rfl, rfl⟩ | ⟨hh, rfl⟩
  · have hblank : header.isBlank = false := by simp [Line.isBlank, ht]
    refine ⟨?_, Block.drop_consumed rfl⟩
    rw [Block.span, Block.take_consumed rfl, hblank]
    rfl
  · have hblank : header.isBlank = true := by simp [Line.isBlank, hh]
    have hsplit : first :: (used ++ b.after) = (first :: used) ++ b.after := rfl
    refine ⟨?_, Block.drop_consumed hsplit⟩
    rw [Block.span, Block.take_consumed hsplit, hblank]
    rfl

end

/-! ## Exact cuts -/

/-- What is left of the lines of a block: one line of the body for each, less the opening brace of the
first, and less the closing brace of the last with the rest behind it. -/
structure Block.Exact (lines : List Line) (b : Block) : Prop where
  numbers : b.body.map Line.number = lines.map Line.number
  tokens : allTokens lines =
    openBrace :: (allTokens b.body ++ closeBrace :: allTokens b.rest.toList)
  rest (r : Line) : b.rest = some r → ∃ last ts, lines.getLast? = some last ∧
    r.number = last.number ∧ r.tokens ≠ [] ∧ last.tokens = ts ++ closeBrace :: r.tokens
  kept (i : Nat) (line : Line) : lines[i]? = some line → ∃ ts, b.body[i]? = some ⟨line.number, ts⟩ ∧
    line.tokens = (if i = 0 then [openBrace] else []) ++ ts ++
      if i + 1 = lines.length then closeBrace :: allTokens b.rest.toList else []
  braces : Balanced openBrace closeBrace (allTokens b.body)

section
variable {first last : Line} {init : List Line} {ts us : List Token} {b : Block}

theorem allTokens_rest {n : Nat} (h : b.rest = if us = [] then none else some ⟨n, us⟩) :
    allTokens b.rest.toList = us := by
  by_cases hu : us = []
  · simp [h, hu]
  · simp [h, hu]

theorem eq_of_rest {n : Nat} {r : Line} (h : b.rest = if us = [] then none else some ⟨n, us⟩)
    (hr : b.rest = some r) : us ≠ [] ∧ r = ⟨n, us⟩ := by
  rw [h] at hr
  by_cases hu : us = []
  · rw [if_pos hu] at hr
    cases hr
  · rw [if_neg hu] at hr
    exact ⟨hu, (Option.some.inj hr).symm⟩

theorem Block.exact_of_line (ht : first.tokens = openBrace :: (ts ++ closeBrace :: us))
    (hbody : b.body = [⟨first.number, ts⟩])
    (hrest : b.rest = if us = [] then none else some ⟨first.number, us⟩)
    (hb : Balanced openBrace closeBrace (allTokens b.body)) : Exact [first] b where
  numbers := by simp [hbody]
  tokens := by rw [allTokens_rest hrest]; simp [hbody, ht]
  rest r hr := by
    obtain ⟨hu, rfl⟩ := eq_of_rest hrest hr
    exact ⟨first, openBrace :: ts, rfl, rfl, hu, ht⟩
  kept i line hi := by
    rw [allTokens_rest hrest]
    cases i with
    | zero => cases hi; exact ⟨ts, by simp [hbody], by simp [ht]⟩
    | succ i => simp at hi
  braces := hb

theorem Block.exact_of_lines {vs : List Token} (hv : first.tokens = openBrace :: vs)
    (ht : last.tokens = ts ++ closeBrace :: us)
    (hbody : b.body = ⟨first.number, vs⟩ :: (init ++ [⟨last.number, ts⟩]))
    (hrest : b.rest = if us = [] then none else some ⟨last.number, us⟩)
    (hb : Balanced openBrace closeBrace (allTokens b.body)) : Exact (first :: (init ++ [last])) b where
  numbers := by simp [hbody]
  tokens := by rw [allTokens_rest hrest]; simp [hbody, hv, ht]
  rest r hr := by
    obtain ⟨hu, rfl⟩ := eq_of_rest hrest hr
    have hlast : (first :: init ++ [last]).getLast? = some last := List.getLast?_concat
    exact ⟨last, ts, hlast, rfl, hu, ht⟩
  kept i line hi := by
    rw [allTokens_rest hrest, hbody]
    cases i with
    | zero => cases hi; exact ⟨vs, rfl, by simp [hv]⟩
    | succ i =>
      rw [List.getElem?_cons_succ] at hi ⊢
      by_cases hlt : i < init.length
      · -- A line in the middle is kept whole.
        rw [List.getElem?_append_left hlt] at hi ⊢
        exact ⟨line.tokens, hi, by simp [Nat.ne_of_lt hlt]⟩
      · have hle : init.length ≤ i := Nat.le_of_not_lt hlt
        rw [List.getElem?_append_right hle] at hi ⊢
        obtain ⟨hi0, rfl⟩ : i - init.length = 0 ∧ last = line := by
          simpa [List.getElem?_singleton] using hi
        have heq : i = init.length := by omega
        exact ⟨ts, by simp [hi0], by simp [heq, ht]⟩
  braces := hb

end

/-- Cutting the block of a header loses, doubles and moves nothing. -/
theorem exact_of_cut {header : Line} {following : List Line} {b : Block}
    (h : Block.cut header following = .ok b) : b.consumed following ≤ following.length ∧
      following.drop (b.consumed following) = b.after ∧ b.Exact (b.span header following) := by
  obtain ⟨first, vs, used, hv, hs, hspan, hdrop⟩ := span_of_cut h
  refine ⟨Nat.sub_le .., hdrop, ?_⟩
  have hb := balanced_of_cut h
  obtain ⟨init, last, ts, us, hlines, ht, hbody, hrest⟩ := hs.exists_last
  rw [hspan]
  cases init with
  | nil =>
    obtain ⟨rfl, hused⟩ := List.cons.inj hlines
    obtain rfl : used = [] := by simpa using hused
    exact Block.exact_of_line (by rw [hv]; exact congrArg _ ht) hbody hrest hb
  | cons line init =>
    obtain ⟨rfl, hused⟩ := List.cons.inj hlines
    have happend : used ++ b.after = (init ++ [last]) ++ b.after := by
      rw [hused]
      simp
    obtain rfl : used = init ++ [last] := List.append_cancel_right happend
    exact Block.exact_of_lines hv ht hbody hrest hb

theorem exact_of_cut_shifted :
    let header : Line := ⟨1, []⟩
    let following : List Line := [⟨2, [openBrace, "if", "(", "n", ")"]⟩, ⟨3, [openBrace, "x", "=", "1"]⟩,
      ⟨4, [closeBrace, closeBrace, "print", "(", "x", ")"]⟩, ⟨5, ["y", "=", "2"]⟩]
    let b : Block := ⟨[⟨2, ["if", "(", "n", ")"]⟩, ⟨3, [openBrace, "x", "=", "1"]⟩, ⟨4, [closeBrace]⟩],
      some ⟨4, ["print", "(", "x", ")"]⟩, [⟨5, ["y", "=", "2"]⟩]⟩
    Block.cut header following = .ok b ∧ b.consumed following = 3 ∧
      b.span header following = following.take 3 ∧ b.Exact (following.take 3) := by
  intro header following b
  have hcut : Block.cut header following = .ok b := by decide +kernel
  exact ⟨hcut, rfl, rfl, (exact_of_cut hcut).2.2⟩

end SlotCompiler
