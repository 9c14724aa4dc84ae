import SlotCompiler.Proofs.Nesting

/-!
# Delimiters of accepted sources

Several checks together keep the delimiters in order: the totals of a line, the group of a condition,
the postfix form of an expression, and the scan for the end of a block. `structured_of_lowerLines`
collects what they leave: plain lines whose parentheses nest, and headers that each own a block. From
that, `delimited_of_compile` reads off how parentheses and braces stand in an accepted source.
-/

namespace SlotCompiler

/-! ## Balance -/

/-- No prefix closes more than it opens, and the whole closes as much as it opens. -/
structure Balanced (opening closing : Token) (ts : List Token) : Prop where
  covered : ∀ us, us <+: ts → us.count closing ≤ us.count opening
  closed : ts.count opening = ts.count closing

section
variable {o c : Token} {ts us : List Token}

theorem balanced_of_not_mem (ho : o ∉ ts) (hc : c ∉ ts) : Balanced o c ts := by
  refine ⟨fun us hus => ?_, ?_⟩
  · rw [List.count_eq_zero.mpr fun hm => hc (hus.subset hm)]
    exact Nat.zero_le _
  · rw [List.count_eq_zero.mpr ho, List.count_eq_zero.mpr hc]

theorem Balanced.append (h : Balanced o c ts) (h' : Balanced o c us) : Balanced o c (ts ++ us) := by
  refine ⟨fun vs hvs => ?_, ?_⟩
  · rcases List.prefix_or_prefix_of_prefix hvs (List.prefix_append ts us) with hv | ⟨ws, rfl⟩
    · exact h.covered vs hv
    · -- Such a prefix holds all of `ts`, and `ts` closes what it opens.
      have hw := h'.covered ws ((List.prefix_append_right_inj ts).mp hvs)
      have hts := h.closed
      simp only [List.count_append]
      omega
  · rw [List.count_append, List.count_append, h.closed, h'.closed]

theorem Balanced.wrap (h : Balanced o c ts) (hne : o ≠ c) : Balanced o c (o :: (ts ++ [c])) := by
  have hclosed := h.closed
  have hwhole : (o :: (ts ++ [c])).count o = (o :: (ts ++ [c])).count c := by
    simp [List.count_append, hne, hne.symm, hclosed]
  refine ⟨fun vs hvs => ?_, hwhole⟩
  rcases List.prefix_cons_iff.mp hvs with rfl | ⟨ws, rfl, hws⟩
  · exact Nat.le_refl _
  · rcases List.prefix_concat_iff.mp hws with rfl | hw
    · exact hwhole.ge
    · have hw := h.covered ws hw
      rw [List.count_cons_self, List.count_cons_of_ne hne]
      omega

theorem count_le_of_nest {k j : Nat} (h : nest k ts = some j) {us : List Token} (hus : us <+: ts) :
    us.count ")" ≤ k + us.count "(" := by
  induction ts generalizing k us with
  | nil => simp [List.prefix_nil.mp hus]
  | cons t ts ih =>
    rcases List.prefix_cons_iff.mp hus with rfl | ⟨vs, rfl, hvs⟩
    · simp
    · by_cases ho : t = "("
      · subst ho
        have := ih h hvs
        simp; omega
      · by_cases hc : t = ")"
        · subst hc
          cases k with
          | zero => cases h
          | succ k =>
            have := ih h hvs
            simp; omega
        · rw [nest_cons ho hc] at h
          simpa [ho, hc] using ih h hvs

theorem Nested.balanced (h : Nested ts) : Balanced "(" ")" ts where
  covered us hus := by simpa using count_le_of_nest h hus
  closed := h.count_eq

end

/-! ## The structure of accepted lines -/

def Control.header (c : Control) (cond : List Token) : List Token :=
  c.keyword :: "(" :: (cond ++ [")"])

/-- Plain lines whose parentheses nest, and headers with their blocks. -/
inductive Structured : List Line → Prop
  | nil : Structured []
  | plain {line : Line} {following : List Line} : Nested line.tokens →
    (∀ t ∈ line.tokens, t ∉ structural) → Structured following → Structured (line :: following)
  | control {line : Line} {following : List Line} {c : Control} {cond rest : List Token} {b : Block} :
    line.tokens = c.header cond ++ rest → Nested cond → (∀ t ∈ cond, t ∉ structural) →
    Block.cut ⟨line.number, rest⟩ following = .ok b → Structured b.body → Structured b.remaining →
    Structured (line :: following)

theorem nested_of_lowerPrint {expr : List Token} {d d' : Draft} (h : (lowerPrint expr).run d = .ok () d') :
    Nested ("print" :: "(" :: (expr ++ [")"])) := by
  obtain ⟨v, d₁, hv, _⟩ := run_bind_ok h
  have hprint : Nested ["print"] := rfl
  exact hprint.append (nested_of_lowerExpr hv).paren

theorem nested_of_lowerAssign {x : Token} {expr : List Token} {d d' : Draft}
    (h : (lowerAssign x expr).run d = .ok () d') : Nested (x :: "=" :: expr) := by
  obtain ⟨slot, d₁, hx, h⟩ := run_bind_ok h
  obtain ⟨v, d₂, hv, _⟩ := run_bind_ok h
  have heq : Nested ["="] := rfl
  obtain ⟨ho, hc⟩ := ne_paren_of_isName (isName_of_declare hx)
  exact (nested_singleton ho hc).append (heq.append (nested_of_lowerExpr hv))

theorem structured_of_lowerLines {lines : List Line} {d d' : Draft}
    (h : (lowerLines lines).run d = .ok () d') : Structured lines := by
  induction lines using lowerLines.induct generalizing d d' with
  | case1 => exact .nil
  | case2 line following c hf => simp only [lowerLines_cons, hf] at h; cases h
  | case3 line following hf ih =>
    simp only [lowerLines_cons, hf] at h
    have hblank := Form.eq_of_blank hf
    exact .plain (hblank ▸ rfl) (by simp [hblank]) (ih h)
  | case4 line following expr hf ih =>
    simp only [lowerLines_cons, hf] at h
    obtain ⟨_, d₁, hp, h⟩ := run_bind_ok h
    have hp := run_atLine_ok hp
    have hline := Form.eq_of_print hf
    exact .plain (hline ▸ nested_of_lowerPrint hp) (hline ▸ plain_of_lowerPrint hp) (ih h)
  | case5 line following x expr hf ih =>
    simp only [lowerLines_cons, hf] at h
    obtain ⟨_, d₁, hp, h⟩ := run_bind_ok h
    have hp := run_atLine_ok hp
    have hline := Form.eq_of_assign hf
    exact .plain (hline ▸ nested_of_lowerAssign hp) (hline ▸ plain_of_lowerAssign hp) (ih h)
  | case6 line following c tokens hf ihb ihr =>
    obtain ⟨cond, rest, block, v, d₁, d₂, hg, hv, hb, hbody, hrest⟩ := lowerLines_control_ok hf h
    have hline : line.tokens = c.header cond ++ rest := by
      simp [Form.eq_of_control hf, eq_of_group? hg, Control.header]
    exact .control hline (nested_of_group? hg) (plain_of_lowerExpr hv) hb
      (ihb cond rest hg block hb hbody) (ihr cond rest hg block hb hrest)

/-! ## Parentheses -/

section
variable {lines following : List Line} {first : Line} {b : Block} {cond : List Token}

theorem Control.nested_header (c : Control) (h : Nested cond) : Nested (c.header cond) := by
  have hk : Nested [c.keyword] := by cases c <;> rfl
  exact hk.append h.paren

-- A line on which a block closes was cut in two, and both parts were accepted as lines.
theorem Splits.nested (h : Splits lines b) (hb : ∀ line ∈ b.body, Nested line.tokens)
    (hr : ∀ line ∈ b.remaining, Nested line.tokens) : ∀ line ∈ lines, Nested line.tokens := by
  induction h with
  | @here line body rest after ht =>
    have hclose : Nested [closeBrace] := rfl
    have hbody : Nested body := hb ⟨line.number, body⟩ (List.mem_singleton_self _)
    have hrest : Nested rest := by
      by_cases hn : rest = []
      · rw [hn]; rfl
      · exact hr ⟨line.number, rest⟩ (by simp [Block.closedAt, Block.remaining, hn])
    refine List.forall_mem_cons.mpr ⟨?_, fun l hl => hr l (List.mem_append_right _ hl)⟩
    rw [ht]
    exact hbody.append (hclose.append hrest)
  | next _ ih =>
    obtain ⟨hline, hb⟩ := List.forall_mem_cons.mp hb
    exact List.forall_mem_cons.mpr ⟨hline, ih hb hr⟩

theorem nested_of_cut (h : Block.cut first following = .ok b) (hb : ∀ line ∈ b.body, Nested line.tokens)
    (hr : ∀ line ∈ b.remaining, Nested line.tokens) :
    ∀ line ∈ first :: following, Nested line.tokens := by
  obtain ⟨line, ts, after, ht, hs, hline⟩ := splits_of_cut h
  obtain ⟨hts, hafter⟩ := List.forall_mem_cons.mp (hs.nested hb hr)
  have hopen : Nested [openBrace] := rfl
  have hl : Nested line.tokens := by
    rw [ht]
    exact hopen.append hts
  rcases hline with ⟨rfl, rfl⟩ | ⟨hh, rfl⟩
  · exact List.forall_mem_cons.mpr ⟨hl, hafter⟩
  · have hempty : Nested first.tokens := by rw [hh]; rfl
    exact List.forall_mem_cons.mpr ⟨hempty, List.forall_mem_cons.mpr ⟨hl, hafter⟩⟩

theorem Structured.nested (h : Structured lines) : ∀ line ∈ lines, Nested line.tokens := by
  induction h with
  | nil => simp
  | plain hn _ _ ih => exact List.forall_mem_cons.mpr ⟨hn, ih⟩
  | @control line following c cond rest b ht hn _ hb _ _ ihb ihr =>
    obtain ⟨hrest, hfollowing⟩ := List.forall_mem_cons.mp (nested_of_cut hb ihb ihr)
    refine List.forall_mem_cons.mpr ⟨?_, hfollowing⟩
    rw [ht]
    exact (c.nested_header hn).append hrest

end

/-! ## Braces -/

section
variable {lines : List Line} {ts cond : List Token}

theorem balanced_plain (h : ∀ t ∈ ts, t ∉ structural) : Balanced openBrace closeBrace ts :=
  balanced_of_not_mem (fun hm => h _ hm (by decide)) (fun hm => h _ hm (by decide))

theorem Control.not_mem_header {t : Token} (c : Control) (h : ∀ t ∈ cond, t ∉ structural)
    (ht : t ∈ structural) (hk : t ≠ c.keyword) : t ∉ c.header cond := by
  intro hm
  rcases List.mem_cons.mp hm with heq | hm
  · exact hk heq
  · exact plain_header h t hm ht

theorem Control.balanced_header (c : Control) (h : ∀ t ∈ cond, t ∉ structural) :
    Balanced openBrace closeBrace (c.header cond) := by
  apply balanced_of_not_mem
  · exact c.not_mem_header h (by decide) (by cases c <;> decide)
  · exact c.not_mem_header h (by decide) (by cases c <;> decide)

theorem Structured.balanced (h : Structured lines) :
    Balanced openBrace closeBrace (allTokens lines) := by
  induction h with
  | nil => exact balanced_plain nofun
  | plain _ hp _ ih => exact (balanced_plain hp).append ih
  | @control line following c cond rest b ht _ hp hb _ _ ihb ihr =>
    have hall : allTokens (line :: following) = c.header cond ++
        ((openBrace :: (allTokens b.body ++ [closeBrace])) ++ allTokens b.remaining) := by
      have hcut := allTokens_of_cut hb
      simp only [allTokens_cons] at hcut
      simp [ht, hcut]
    rw [hall]
    exact (c.balanced_header hp).append ((ihb.wrap (by decide)).append ihr)

end

/-! ## Opening braces -/

/-- The tokens of the lines, and `none` at the end of each line. -/
def stream (lines : List Line) : List (Option Token) :=
  lines.flatMap fun line => line.tokens.map some ++ [none]

/-- What may stand between a condition and its block: nothing, or the end of the line. -/
def IsGap (gap : List (Option Token)) : Prop := gap = [] ∨ gap = [none]

/-- Ends with the condition of a header and a gap. -/
def EndsHeader (ts : List (Option Token)) : Prop :=
  ∃ front c cond gap, Balanced "(" ")" cond ∧ IsGap gap ∧
    ts = front ++ (Control.header c cond).map some ++ gap

/-- Every opening brace comes right behind a header, `before` standing in front of the tokens. -/
def Opened (before : List (Option Token)) : List (Option Token) → Prop
  | [] => True
  | t :: ts => (t = some openBrace → EndsHeader before) ∧ Opened (before ++ [t]) ts

section
variable {before ts us : List (Option Token)} {lines following : List Line} {first : Line} {b : Block}

theorem EndsHeader.append_left (h : EndsHeader ts) (us : List (Option Token)) : EndsHeader (us ++ ts) := by
  obtain ⟨front, c, cond, gap, hb, hg, rfl⟩ := h
  exact ⟨us ++ front, c, cond, gap, hb, hg, by simp⟩

theorem opened_append : Opened before (ts ++ us) ↔ Opened before ts ∧ Opened (before ++ ts) us := by
  induction ts generalizing before with
  | nil => simp [Opened]
  | cons t ts ih => simp [Opened, ih, and_assoc]

theorem opened_of_not_mem (h : some openBrace ∉ ts) : Opened before ts := by
  induction ts generalizing before with
  | nil => trivial
  | cons t ts ih =>
    rw [List.mem_cons, not_or] at h
    exact ⟨fun ht => absurd ht.symm h.1, ih h.2⟩

theorem Opened.append_left (h : Opened before ts) (more : List (Option Token)) :
    Opened (more ++ before) ts := by
  induction ts generalizing before with
  | nil => trivial
  | cons t ts ih =>
    refine ⟨fun ht => (h.1 ht).append_left more, ?_⟩
    rw [List.append_assoc]
    exact ih h.2

theorem Opened.anywhere (h : Opened [] ts) : Opened before ts := by
  simpa using h.append_left before

theorem IsGap.opened (h : IsGap ts) : Opened before ts := by
  apply opened_of_not_mem
  rcases h with rfl | rfl <;> simp

theorem stream_cons_append {line : Line} {us vs : List Token} (h : line.tokens = us ++ vs) (n : Nat) :
    stream (line :: lines) = us.map some ++ stream (⟨n, vs⟩ :: lines) := by
  simp [stream, h]

theorem Splits.stream_eq (h : Splits lines b) : ∃ body gap, stream b.body = body ++ [none] ∧ IsGap gap ∧
    stream lines = body ++ some closeBrace :: (gap ++ stream b.remaining) := by
  induction h with
  | @here line body rest after ht =>
    have hbody : stream (Block.closedAt line.number body rest after).body = body.map some ++ [none] := by
      simp [stream, Block.closedAt]
    by_cases hr : rest = []
    · exact ⟨_, [none], hbody, .inr rfl, by simp [stream, Block.closedAt, Block.remaining, ht, hr]⟩
    · exact ⟨_, [], hbody, .inl rfl, by simp [stream, Block.closedAt, Block.remaining, ht, hr]⟩
  | @next line lines b _ ih =>
    obtain ⟨body, gap, hb, hgap, hs⟩ := ih
    refine ⟨line.tokens.map some ++ none :: body, gap, ?_, hgap, ?_⟩
    · simp only [stream, List.flatMap_cons] at hb ⊢
      simp [hb]
    · simp only [stream, List.flatMap_cons, Block.remaining] at hs ⊢
      simp [hs]

theorem stream_of_cut (h : Block.cut first following = .ok b) : ∃ gap body gap',
    IsGap gap ∧ stream b.body = body ++ [none] ∧ IsGap gap' ∧ stream (first :: following) =
      gap ++ some openBrace :: (body ++ some closeBrace :: (gap' ++ stream b.remaining)) := by
  obtain ⟨line, ts, after, ht, hs, hline⟩ := splits_of_cut h
  obtain ⟨body, gap', hbody, hgap', hs⟩ := hs.stream_eq
  have htokens : line.tokens = [openBrace] ++ ts := ht
  have hopen : stream (line :: after) =
      some openBrace :: (body ++ some closeBrace :: (gap' ++ stream b.remaining)) := by
    rw [stream_cons_append htokens line.number, hs]
    rfl
  rcases hline with ⟨rfl, rfl⟩ | ⟨hh, rfl⟩
  · exact ⟨[], body, gap', .inl rfl, hbody, hgap', hopen⟩
  · refine ⟨[none], body, gap', .inr rfl, hbody, hgap', ?_⟩
    rw [← hopen]
    simp [stream, hh]

theorem Structured.opened (h : Structured lines) : Opened [] (stream lines) := by
  induction h with
  | nil => trivial
  | @plain line following _ hp _ ih =>
    have hline : some openBrace ∉ line.tokens.map some ++ [none] := by
      simpa using fun hm => hp _ hm (by decide)
    exact opened_append.mpr ⟨opened_of_not_mem hline, ih.anywhere⟩
  | @control line following c cond rest b ht hn hp hb _ _ ihb ihr =>
    obtain ⟨gap, body, gap', hgap, hbody, hgap', hrest⟩ := stream_of_cut hb
    have hheader : openBrace ∉ c.header cond :=
      c.not_mem_header hp (by decide) (by cases c <;> decide)
    have hends : EndsHeader ((c.header cond).map some ++ gap) :=
      ⟨[], c, cond, gap, hn.balanced, hgap, rfl⟩
    -- The body stands in the stream without the end of its last line.
    have hbody : Opened [] body := (opened_append.mp (hbody ▸ ihb)).1
    rw [stream_cons_append ht line.number, hrest, opened_append, opened_append]
    refine ⟨opened_of_not_mem (by simpa using hheader), hgap.opened, fun _ => hends, ?_⟩
    rw [opened_append]
    refine ⟨hbody.anywhere, fun hc => absurd hc (by decide), ?_⟩
    rw [opened_append]
    exact ⟨hgap'.opened, ihr.anywhere⟩

end

/-! ## Accepted sources -/

/-- The parentheses of each line and the braces of the whole are balanced, and each brace opens right
behind the condition of a header or at the start of the next line. -/
structure Delimited (lines : List Line) : Prop where
  parens : ∀ line ∈ lines, Balanced "(" ")" line.tokens
  braces : Balanced openBrace closeBrace (allTokens lines)
  openers : ∀ front back, stream lines = front ++ some openBrace :: back → EndsHeader front

theorem Structured.delimited {lines : List Line} (h : Structured lines) : Delimited lines where
  parens line hl := (h.nested line hl).balanced
  braces := h.balanced
  openers front back hs := by
    have hopened := h.opened
    rw [hs, opened_append] at hopened
    exact hopened.2.1 rfl

theorem lowerLines_of_compile {source : String} (h : (compile source).verdict = .accepted) :
    ∃ d d', (lowerLines (readLines source)).run d = .ok () d' := by
  unfold compile lowerSource lowerProgram at h
  split at h
  · rename_i code hc
    split at hc
    · rename_i d hd
      exact ⟨_, d, hd⟩
    · cases hc
  · cases h

theorem delimited_of_compile {source : String} (h : (compile source).verdict = .accepted) :
    Delimited (readLines source) := by
  obtain ⟨d, d', hd⟩ := lowerLines_of_compile h
  exact (structured_of_lowerLines hd).delimited

theorem delimited_nested_blocks :
    (compile "if (n) # )\n\x7b while (((n)) - 1) \x7b n = 1 \x7d \x7d # \x7b").verdict = .accepted ∧
      Delimited (readLines "if (n) # )\n\x7b while (((n)) - 1) \x7b n = 1 \x7d \x7d # \x7b") := by
  refine (fun h => ⟨h, delimited_of_compile h⟩) ?_
  obtain ⟨code, h⟩ : ∃ code,
      lowerSource "if (n) # )\n\x7b while (((n)) - 1) \x7b n = 1 \x7d \x7d # \x7b" = .ok code :=
    ⟨_, by cbv⟩
  rw [compile, h]

end SlotCompiler
