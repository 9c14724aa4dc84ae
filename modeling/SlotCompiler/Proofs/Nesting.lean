import SlotCompiler.Proofs.Groups
import SlotCompiler.Proofs.Lockstep

/-!
# Blocks inside blocks

Lines that are accepted on their own may be put into one more block, unless one of their headers
stands in the middle of a line and inside a block of theirs: the scan for the end of the outer block
knows headers only at the start of a line and between the outermost inner blocks.
`lowerLines_enclose_iff` is exact, and says what code the body gets.
-/

namespace SlotCompiler

/-! ## More lines -/

def Block.extend (b : Block) (lines : List Line) : Block := { b with after := b.after ++ lines }

section
variable {s : Scan} {line header : Line} {following lines : List Line} {b : Block}

theorem Block.remaining_extend (b : Block) (lines : List Line) :
    (b.extend lines).remaining = b.remaining ++ lines := by
  simp [remaining, extend]

theorem Block.scan_append (h : scan s line following = .ok b) :
    scan s line (following ++ lines) = .ok (b.extend lines) := by
  induction following generalizing s line b with
  | nil =>
    rw [scan] at h
    rw [scan.eq_def]
    split at h
    · cases h
    · cases h; rfl
    · cases h
  | cons next following ih =>
    rw [scan] at h
    rw [scan.eq_def]
    split at h
    · cases h
    · cases h; rfl
    · rename_i s' hl
      cases hb : scan { s' with fresh := true } next following with
      | error e => simp only [hb, Except.map] at h; cases h
      | ok b' =>
        simp only [hb, Except.map] at h
        cases h
        simp only [List.cons_append, ih hb, Except.map]
        rfl

theorem Block.openAt_append {n : Nat} (h : openAt n line following = .ok b) :
    openAt n line (following ++ lines) = .ok (b.extend lines) := by
  unfold openAt at h ⊢
  split at h
  · cases h
  · rename_i t ts ht
    split at h
    · rename_i ho
      simp only [if_pos ho]
      exact scan_append h
    · cases h

theorem Block.cut_append (h : cut header following = .ok b) :
    cut header (following ++ lines) = .ok (b.extend lines) := by
  unfold cut at h
  split at h
  · cases h
  · rename_i next following hh
    simp only [cut, hh, List.cons_append]
    exact openAt_append h
  · rename_i t ts _ hh
    simp only [cut, hh]
    exact openAt_append h

end

/-- Lines behind accepted ones are lowered from where those have led. -/
theorem run_lowerLines_append {lines : List Line} (more : List Line) {d d' : Draft}
    (h : (lowerLines lines).run d = .ok () d') :
    (lowerLines (lines ++ more)).run d = (lowerLines more).run d' := by
  induction lines using lowerLines.induct generalizing d d' with
  | case1 => rw [lowerLines_nil] at h; cases h; rfl
  | case2 line following c hf => simp only [lowerLines_cons, hf] at h; cases h
  | case3 line following hf ih =>
    simp only [List.cons_append, lowerLines_cons, hf] at h ⊢
    exact ih h
  | case4 line following expr hf ih =>
    simp only [List.cons_append, lowerLines_cons, hf] at h ⊢
    obtain ⟨_, d₁, hp, h⟩ := run_bind_ok h
    rw [run_bind_of_ok hp]
    exact ih h
  | case5 line following x expr hf ih =>
    simp only [List.cons_append, lowerLines_cons, hf] at h ⊢
    obtain ⟨_, d₁, hp, h⟩ := run_bind_ok h
    rw [run_bind_of_ok hp]
    exact ih h
  | case6 line following c tokens hf ihb ihr =>
    obtain ⟨cond, rest, block, v, d₁, d₂, hg, hv, hb, hbody, hrest⟩ := lowerLines_control_ok hf h
    rw [List.cons_append, run_lowerLines_control hf hg hv (Block.cut_append hb) hbody,
      Block.remaining_extend]
    exact ihr cond rest hg block hb hrest

/-! ## Scanning lines -/

/-- Scans lines that are all inside the block, or finds that they are not. -/
def Scan.lines (s : Scan) : List Line → Slice
  | [] => .inside s
  | line :: following =>
    match s.line line.tokens with
    | .inside s => { s with fresh := true }.lines following
    | .closed _ _ => .closed [] []
    | .stray => .stray

section
variable {s s' : Scan} {t : Token} {ts us : List Token} {line : Line} {ls : List Line}
  {b : Block}

theorem Scan.lines_cons_inside (h : s.line line.tokens = .inside s') :
    s.lines (line :: ls) = { s' with fresh := true }.lines ls := by
  rw [lines, h]

theorem Scan.lines_cons_stray (h : s.line line.tokens = .stray) : s.lines (line :: ls) = .stray := by
  rw [lines, h]

theorem Scan.inside_of_lines_cons (h : s.lines (line :: ls) = .inside s') :
    ∃ s₁, s.line line.tokens = .inside s₁ ∧ { s₁ with fresh := true }.lines ls = .inside s' := by
  cases hl : s.line line.tokens with
  | inside s₁ => exact ⟨s₁, rfl, lines_cons_inside hl ▸ h⟩
  | closed b r => rw [lines, hl] at h; cases h
  | stray => rw [lines, hl] at h; cases h

theorem Scan.stray_of_lines_cons (h : s.lines (line :: ls) = .stray) :
    s.line line.tokens = .stray ∨
      ∃ s₁, s.line line.tokens = .inside s₁ ∧ { s₁ with fresh := true }.lines ls = .stray := by
  cases hl : s.line line.tokens with
  | inside s₁ => exact .inr ⟨s₁, rfl, lines_cons_inside hl ▸ h⟩
  | closed b r => rw [lines, hl] at h; cases h
  | stray => exact .inl rfl

theorem Slice.cons_eq_inside {slice : Slice} : slice.cons t = .inside s ↔ slice = .inside s := by
  cases slice <;> simp [cons]

theorem Slice.cons_eq_stray {slice : Slice} : slice.cons t = .stray ↔ slice = .stray := by
  cases slice <;> simp [cons]

theorem Scan.line_cons (hc : ¬(t = closeBrace ∧ s.depth = 0))
    (ho : ¬(t = openBrace ∧ s.header ≠ .opener)) : s.line (t :: ts) = ((s.next t).line ts).cons t := by
  rw [line, if_neg hc, if_neg ho]

theorem Scan.lines_cons_append (h : s.line ts = .inside s') (ht : line.tokens = ts ++ us) (n : Nat) :
    s.lines (line :: ls) = s'.lines (⟨n, us⟩ :: ls) := by
  induction ts generalizing s line with
  | nil => cases h; rw [lines, ht]; rfl
  | cons t ts ih =>
    rw [Scan.line] at h
    split at h
    · cases h
    · rename_i hc
      split at h
      · cases h
      · rename_i ho
        have hrest : Line.tokens ⟨n, ts ++ us⟩ = ts ++ us := rfl
        rw [← ih (Slice.cons_eq_inside.mp h) hrest, lines, lines, ht, List.cons_append, line_cons hc ho]
        cases (s.next t).line (ts ++ us) <;> rfl

theorem Scan.line_closeBrace (h : s.depth ≠ 0) : s.line [closeBrace] = .inside (s.next closeBrace) := by
  rw [line_cons (fun hc => h hc.2) fun ho => absurd ho.1 (by decide)]
  rfl

theorem Scan.next_fresh (hi : t ≠ "if") (hw : t ≠ "while") (fresh : Bool) :
    { s with fresh }.next t = s.next t := by
  simp [next, Header.next, hi, hw]

def Scan.leave (s : Scan) (b : Block) : Slice :=
  match b.rest with
  | none => { s.next closeBrace with fresh := true }.lines b.after
  | some rest => (s.next closeBrace).lines (rest :: b.after)

theorem Scan.lines_splits (h : Splits ls b) (hb : s.lines b.body = .inside s') (hd : s'.depth ≠ 0) :
    s.lines ls = s'.leave b := by
  induction h generalizing s with
  | @here line body rest after ht =>
    obtain ⟨s₁, hl, hb⟩ := inside_of_lines_cons hb
    cases hb
    have hnext : ({ s₁ with fresh := true } : Scan).next closeBrace = s₁.next closeBrace :=
      next_fresh (by decide) (by decide) _
    have hclose : s₁.lines (⟨line.number, closeBrace :: rest⟩ :: after) =
        (s₁.next closeBrace).lines (⟨line.number, rest⟩ :: after) :=
      lines_cons_append (line_closeBrace (s := s₁) hd) rfl _
    rw [lines_cons_append hl ht line.number, hclose, leave, hnext]
    by_cases hr : rest = []
    · subst hr; rfl
    · simp only [Block.closedAt, if_neg hr]
  | next _ ih =>
    obtain ⟨s₁, hl, hb⟩ := inside_of_lines_cons hb
    rw [lines_cons_inside hl]
    exact ih hb

theorem Scan.line_append_stray (h : s.line ts = .stray) (us : List Token) :
    s.line (ts ++ us) = .stray := by
  induction ts generalizing s with
  | nil => cases h
  | cons t ts ih =>
    rw [line] at h
    rw [List.cons_append, line]
    split at h
    · cases h
    · rename_i hc
      rw [if_neg hc]
      split at h
      · rename_i ho
        rw [if_pos ho]
      · rename_i ho
        rw [if_neg ho, ih (Slice.cons_eq_stray.mp h)]
        rfl

theorem Scan.lines_splits_stray (h : Splits ls b) (hb : s.lines b.body = .stray) :
    s.lines ls = .stray := by
  induction h generalizing s with
  | here ht =>
    rcases stray_of_lines_cons hb with hl | ⟨_, _, hb⟩
    · exact lines_cons_stray (ht ▸ line_append_stray hl _)
    · cases hb
  | next _ ih =>
    rcases stray_of_lines_cons hb with hl | ⟨s₁, hl, hb⟩
    · exact lines_cons_stray hl
    · rw [lines_cons_inside hl]
      exact ih hb

end

/-! ## Exposed headers -/

/-- By how many the braces that open outnumber those that close. -/
def braces (ts : List Token) : Int := ts.count openBrace - ts.count closeBrace

/-- Every keyword on a line is its first token or outside of all blocks; `depth` blocks are open
before the line, and `first` says if the line starts here. -/
def ExposedLine (depth : Int) (first : Bool) : List Token → Prop
  | [] => True
  | t :: ts => (t = "if" ∨ t = "while" → first ∨ depth = 0) ∧ ExposedLine (depth + braces [t]) false ts

/-- Every header stands at the start of its line or outside of all blocks. -/
def Exposed (depth : Int) (first : Bool) : List Line → Prop
  | [] => True
  | line :: following =>
    ExposedLine depth first line.tokens ∧ Exposed (depth + braces line.tokens) true following

section
variable {k : Int} {first : Bool} {ts us : List Token} {line : Line} {ls : List Line} {b : Block}

@[simp] theorem braces_nil : braces [] = 0 := rfl

theorem braces_openBrace : braces [openBrace] = 1 := by decide

theorem braces_closeBrace : braces [closeBrace] = -1 := by decide

theorem braces_append (ts us : List Token) : braces (ts ++ us) = braces ts + braces us := by
  simp only [braces, List.count_append]
  omega

theorem braces_cons (t : Token) (ts : List Token) : braces (t :: ts) = braces [t] + braces ts :=
  braces_append [t] ts

theorem braces_plain (h : ∀ t ∈ ts, t ∉ structural) : braces ts = 0 := by
  have ho : openBrace ∉ ts := fun hm => h _ hm (by decide)
  have hc : closeBrace ∉ ts := fun hm => h _ hm (by decide)
  rw [braces, List.count_eq_zero.mpr ho, List.count_eq_zero.mpr hc]
  rfl

theorem exposedLine_append : ExposedLine k first (ts ++ us) ↔
    ExposedLine k first ts ∧ ExposedLine (k + braces ts) (first && ts.isEmpty) us := by
  induction ts generalizing k first with
  | nil => simp [ExposedLine]
  | cons t ts ih =>
    rw [List.cons_append, ExposedLine, ExposedLine, ih, and_assoc, braces_cons t ts, Int.add_assoc]
    simp

theorem exposedLine_plain (h : ∀ t ∈ ts, t ∉ structural) : ExposedLine k first ts := by
  induction ts generalizing k first with
  | nil => trivial
  | cons t ts ih =>
    obtain ⟨ht, hts⟩ := List.forall_mem_cons.mp h
    refine ⟨fun hk => absurd ?_ ht, ih hts⟩
    rcases hk with rfl | rfl <;> decide

theorem exposed_cons_append (ht : line.tokens = ts ++ us) (n : Nat) : Exposed k first (line :: ls) ↔
    ExposedLine k first ts ∧ Exposed (k + braces ts) (first && ts.isEmpty) (⟨n, us⟩ :: ls) := by
  rw [Exposed, Exposed, ht, exposedLine_append, braces_append, and_assoc, Int.add_assoc]

theorem exposed_splits (h : Splits ls b) : Exposed k first ls ↔ Exposed k first b.body ∧
    Exposed (k + braces (allTokens b.body) - 1) b.rest.isNone b.remaining := by
  induction h generalizing k first with
  | @here line body rest after ht =>
    have hclose : ∀ f, Exposed (k + braces body) f (⟨line.number, closeBrace :: rest⟩ :: after) ↔
        Exposed (k + braces body - 1) false (⟨line.number, rest⟩ :: after) := by
      intro f
      have hsplit : Line.tokens ⟨line.number, closeBrace :: rest⟩ = [closeBrace] ++ rest := rfl
      have hplain : ExposedLine (k + braces body) f [closeBrace] :=
        ⟨fun hk => absurd hk (by decide), trivial⟩
      rw [exposed_cons_append hsplit line.number, and_iff_right hplain, braces_closeBrace,
        Int.sub_eq_add_neg]
      simp
    rw [exposed_cons_append ht line.number, hclose]
    by_cases hr : rest = []
    · simp [Block.closedAt, Block.remaining, Exposed, ExposedLine, hr]
    · simp [Block.closedAt, Block.remaining, Exposed, hr]
  | @next line ls b _ ih =>
    simp only [Exposed, List.flatMap_cons, braces_append]
    rw [ih, and_assoc, Int.add_assoc]
    rfl

end

/-! ## Scanning accepted lines -/

section
variable {s s' : Scan} {t : Token} {ts cond rest : List Token} {c : Control} {line : Line}
  {ls : List Line}

theorem Scan.line_plain (ht : t ∉ structural) : s.line (t :: ts) =
    ((⟨s.depth, s.header.next false t, false⟩ : Scan).line ts).cons t := by
  have ho : t ≠ openBrace := fun h => ht (h ▸ by decide)
  have hc : t ≠ closeBrace := fun h => ht (h ▸ by decide)
  have hi : t ≠ "if" := fun h => ht (h ▸ by decide)
  have hw : t ≠ "while" := fun h => ht (h ▸ by decide)
  rw [line_cons (fun h => hc h.1) (fun h => ho h.1)]
  simp [next, Header.next, ho, hc, hi, hw]

theorem Scan.line_idle (h : ∀ t ∈ ts, t ∉ structural) (k : Nat) (fresh : Bool) :
    ∃ f, Scan.line ⟨k, .idle, fresh⟩ ts = .inside ⟨k, .idle, f⟩ := by
  induction ts generalizing fresh with
  | nil => exact ⟨fresh, rfl⟩
  | cons t ts ih =>
    obtain ⟨ht, hts⟩ := List.forall_mem_cons.mp h
    obtain ⟨f, hf⟩ := ih hts false
    refine ⟨f, ?_⟩
    rw [line_plain ht, Slice.cons_eq_inside]
    simpa [Header.next] using hf

theorem Scan.line_condition (h : ∀ t ∈ ts, t ∉ structural) {j j' : Nat} (hn : nest j ts = some j')
    (k : Nat) (fresh : Bool) :
    ∃ f, Scan.line ⟨k, .condition (j + 1), fresh⟩ ts = .inside ⟨k, .condition (j' + 1), f⟩ := by
  induction ts generalizing j fresh with
  | nil => cases hn; exact ⟨fresh, rfl⟩
  | cons t ts ih =>
    obtain ⟨ht, hts⟩ := List.forall_mem_cons.mp h
    by_cases ho : t = "("
    · subst ho
      obtain ⟨f, hf⟩ := ih hts hn false
      refine ⟨f, ?_⟩
      rw [line_plain ht, Slice.cons_eq_inside]
      simpa [Header.next] using hf
    · by_cases hc : t = ")"
      · subst hc
        cases j with
        | zero => cases hn
        | succ j =>
          obtain ⟨f, hf⟩ := ih hts hn false
          refine ⟨f, ?_⟩
          rw [line_plain ht, Slice.cons_eq_inside]
          simpa [Header.next] using hf
      · rw [nest_cons ho hc] at hn
        obtain ⟨f, hf⟩ := ih hts hn false
        refine ⟨f, ?_⟩
        rw [line_plain ht, Slice.cons_eq_inside]
        simpa [Header.next, ho, hc] using hf

theorem Scan.line_keyword (c : Control) (k : Nat) (fresh : Bool) :
    Scan.line ⟨k, .idle, fresh⟩ [c.keyword] =
      .inside ⟨k, if fresh then .condition 0 else .idle, false⟩ := by
  have ho : c.keyword ≠ openBrace := by cases c <;> decide
  have hc : c.keyword ≠ closeBrace := by cases c <;> decide
  have hk : c.keyword = "if" ∨ c.keyword = "while" := by cases c <;> decide
  rw [line_cons (fun h => hc h.1) (fun h => ho h.1)]
  simp [line, next, Header.next, Slice.cons, ho, hc, hk]

theorem Scan.lines_header (hl : ∀ t ∈ cond, t ∉ structural) (hn : Nested cond)
    (ht : line.tokens = c.keyword :: "(" :: (cond ++ ")" :: rest)) (ls : List Line) (k : Nat)
    (fresh : Bool) : ∃ f, Scan.lines ⟨k, .idle, fresh⟩ (line :: ls) =
      Scan.lines ⟨k, if fresh then .opener else .idle, f⟩ (⟨line.number, rest⟩ :: ls) := by
  have hopen : "(" ∉ structural := by decide
  have hclose : ")" ∉ structural := by decide
  rw [lines_cons_append (line_keyword c k fresh) ht line.number]
  cases fresh with
  | false =>
    have hplain : ∀ t ∈ "(" :: (cond ++ [")"]), t ∉ structural := by
      simp only [List.mem_cons, List.mem_append, List.not_mem_nil, or_false]
      rintro t (rfl | ht | rfl)
      exacts [hopen, hl t ht, hclose]
    obtain ⟨f, hf⟩ := line_idle hplain k false
    exact ⟨f, lines_cons_append hf (by simp) line.number⟩
  | true =>
    obtain ⟨f, hf⟩ := line_condition hl hn k false
    have h₁ : Scan.line ⟨k, .condition 0, false⟩ ["("] = .inside ⟨k, .condition 1, false⟩ := by
      rw [line_plain hopen]; rfl
    have h₂ : Scan.line ⟨k, .condition 1, f⟩ [")"] = .inside ⟨k, .opener, false⟩ := by
      rw [line_plain hclose]; rfl
    refine ⟨false, ?_⟩
    rw [if_pos rfl, lines_cons_append h₁ rfl line.number, lines_cons_append hf rfl line.number,
      lines_cons_append h₂ rfl line.number]
    rfl

end

section
variable {s : Scan} {k : Int} {first : Bool} {ts : List Token} {line : Line} {ls : List Line}

theorem Scan.lines_openBrace (ht : line.tokens = openBrace :: ts) (h : s.header = .opener) (n : Nat) :
    s.lines (line :: ls) = Scan.lines ⟨s.depth + 1, .idle, false⟩ (⟨n, ts⟩ :: ls) := by
  have hline : s.line [openBrace] = .inside ⟨s.depth + 1, .idle, false⟩ := by
    rw [line_cons (fun hc => absurd hc.1 (by decide)) fun ho => ho.2 h]
    have hi : openBrace ≠ "if" := by decide
    have hw : openBrace ≠ "while" := by decide
    have hc : openBrace ≠ closeBrace := by decide
    simp [Scan.line, next, Header.next, Slice.cons, h, hi, hw, hc]
  exact lines_cons_append hline ht n

theorem Scan.stray_openBrace (ht : line.tokens = openBrace :: ts) (h : s.header = .idle) :
    s.lines (line :: ls) = .stray := by
  refine lines_cons_stray ?_
  rw [ht, Scan.line, if_neg fun hc => absurd hc.1 (by decide), if_pos ⟨rfl, by simp [h]⟩]

theorem exposed_openBrace (ht : line.tokens = openBrace :: ts) (n : Nat) :
    Exposed k first (line :: ls) ↔ Exposed (k + 1) false (⟨n, ts⟩ :: ls) := by
  have hplain : ExposedLine k first [openBrace] := ⟨fun hk => absurd hk (by decide), trivial⟩
  have hsplit : line.tokens = [openBrace] ++ ts := ht
  rw [exposed_cons_append hsplit n, and_iff_right hplain, braces_openBrace]
  simp

end

theorem lines_of_cut {header : Line} {following : List Line} {b : Block}
    (h : Block.cut header following = .ok b) : ∃ ls, Splits ls b ∧
      (∀ s : Scan, s.header = .opener →
        s.lines (header :: following) = Scan.lines ⟨s.depth + 1, .idle, false⟩ ls) ∧
      (∀ s : Scan, s.header = .idle → s.lines (header :: following) = .stray) ∧
      ∀ k : Int, Exposed k false (header :: following) ↔ Exposed (k + 1) false ls := by
  obtain ⟨line, ts, after, ht, hs, ⟨rfl, rfl⟩ | ⟨hh, rfl⟩⟩ := splits_of_cut h
  · exact ⟨_, hs, fun s ho => Scan.lines_openBrace ht ho _, fun s hi => Scan.stray_openBrace ht hi,
      fun k => exposed_openBrace ht _⟩
  · have hline : ∀ s : Scan, s.lines (header :: line :: after) =
        { s with fresh := true }.lines (line :: after) := by
      intro s
      refine Scan.lines_cons_inside ?_
      rw [hh]; rfl
    refine ⟨_, hs, fun s ho => ?_, fun s hi => ?_, fun k => ?_⟩
    · exact (hline s).trans (Scan.lines_openBrace (s := { s with fresh := true }) ht ho _)
    · exact (hline s).trans (Scan.stray_openBrace (s := { s with fresh := true }) ht hi)
    · rw [Exposed, hh, exposed_openBrace ht line.number]
      simp [ExposedLine]

/-- Behind a block inside, the scan is where it was before, but at the start of a statement only if
no other block is open. -/
theorem Scan.leave_eq (b : Block) (k : Nat) (fresh : Bool) : Scan.leave ⟨k + 1, .idle, fresh⟩ b =
    Scan.lines ⟨k, .idle, b.rest.isNone || decide (k = 0)⟩ b.remaining := by
  have hnext : Scan.next ⟨k + 1, .idle, fresh⟩ closeBrace = ⟨k, .idle, decide (k = 0)⟩ := by
    have hi : closeBrace ≠ "if" := by decide
    have hw : closeBrace ≠ "while" := by decide
    have ho : closeBrace ≠ openBrace := by decide
    simp [next, Header.next, hi, hw, ho]
  rw [leave, hnext]
  cases hr : b.rest with
  | none => simp [Block.remaining, hr]
  | some rest => simp [Block.remaining, hr]

theorem plain_of_lowerExpr {ts : List Token} {d d' : Draft} {v : Operand}
    (h : (lowerExpr ts).run d = .ok v d') : ∀ t ∈ ts, t ∉ structural :=
  fun t ht => (legal_of_lowerExpr h t ht).plain

theorem plain_of_lowerPrint {expr : List Token} {d d' : Draft} (h : (lowerPrint expr).run d = .ok () d') :
    ∀ t ∈ "print" :: "(" :: (expr ++ [")"]), t ∉ structural := by
  obtain ⟨v, d₁, hv, _⟩ := run_bind_ok h
  have he := plain_of_lowerExpr hv
  simp only [List.mem_cons, List.mem_append, List.not_mem_nil, or_false]
  rintro t (rfl | rfl | ht | rfl)
  · decide
  · decide
  · exact he t ht
  · decide

theorem plain_of_lowerAssign {x : Token} {expr : List Token} {d d' : Draft}
    (h : (lowerAssign x expr).run d = .ok () d') : ∀ t ∈ x :: "=" :: expr, t ∉ structural := by
  obtain ⟨slot, d₁, hx, h⟩ := run_bind_ok h
  obtain ⟨v, d₂, hv, _⟩ := run_bind_ok h
  have he := plain_of_lowerExpr hv
  simp only [List.mem_cons]
  rintro t (rfl | rfl | ht)
  · exact (legal_of_isName (isName_of_declare hx)).plain
  · decide
  · exact he t ht

/-- An accepted line that is no header holds no part of a block, and the rest is accepted. -/
theorem plain_of_lowerLines {line : Line} {following : List Line} {d d' : Draft}
    (hf : ∀ c tokens, Form.ofTokens line.tokens ≠ .ok (.control c tokens))
    (h : (lowerLines (line :: following)).run d = .ok () d') :
    (∀ t ∈ line.tokens, t ∉ structural) ∧ ∃ d₁, (lowerLines following).run d₁ = .ok () d' := by
  rw [lowerLines_cons] at h
  split at h
  · cases h
  · rename_i hform
    exact ⟨by simp [Form.eq_of_blank hform], d, h⟩
  · rename_i expr hform
    obtain ⟨_, d₁, hp, h⟩ := run_bind_ok h
    rw [Form.eq_of_print hform]
    exact ⟨plain_of_lowerPrint (run_atLine_ok hp), d₁, h⟩
  · rename_i x expr hform
    obtain ⟨_, d₁, hp, h⟩ := run_bind_ok h
    rw [Form.eq_of_assign hform]
    exact ⟨plain_of_lowerAssign (run_atLine_ok hp), d₁, h⟩
  · rename_i c tokens hform
    exact absurd hform (hf c tokens)

theorem plain_line {line : Line} (h : ∀ t ∈ line.tokens, t ∉ structural) (ls : List Line) (k : Nat)
    (first fresh : Bool) :
    Scan.lines ⟨k, .idle, fresh⟩ (line :: ls) = Scan.lines ⟨k, .idle, true⟩ ls ∧
      (Exposed k first (line :: ls) ↔ Exposed k true ls) := by
  obtain ⟨f, hf⟩ := Scan.line_idle h k fresh
  refine ⟨Scan.lines_cons_inside hf, ?_⟩
  rw [Exposed, braces_plain h, and_iff_right (exposedLine_plain h), Int.add_zero]

theorem plain_header {cond : List Token} (h : ∀ t ∈ cond, t ∉ structural) :
    ∀ t ∈ "(" :: (cond ++ [")"]), t ∉ structural := by
  simp only [List.mem_cons, List.mem_append, List.not_mem_nil, or_false]
  rintro t (rfl | ht | rfl)
  · decide
  · exact h t ht
  · decide

theorem braces_header (c : Control) {cond : List Token} (h : ∀ t ∈ cond, t ∉ structural) :
    braces (c.keyword :: "(" :: (cond ++ [")"])) = 0 := by
  have hb : braces [c.keyword] = 0 := by cases c <;> decide
  rw [braces_cons, hb, braces_plain (plain_header h)]
  rfl

theorem exposed_header {c : Control} {cond rest : List Token} {line : Line} {ls : List Line} {k : Int}
    {first : Bool} (hl : ∀ t ∈ cond, t ∉ structural)
    (ht : line.tokens = c.keyword :: "(" :: (cond ++ ")" :: rest)) :
    Exposed k first (line :: ls) ↔ (first ∨ k = 0) ∧ Exposed k false (⟨line.number, rest⟩ :: ls) := by
  have hk : c.keyword = "if" ∨ c.keyword = "while" := by cases c <;> decide
  have hsplit : line.tokens = (c.keyword :: "(" :: (cond ++ [")"])) ++ rest := by simp [ht]
  rw [exposed_cons_append hsplit line.number, braces_header c hl, ExposedLine,
    and_iff_left (exposedLine_plain (plain_header hl)), Int.add_zero]
  simp [hk]

theorem braces_of_lowerLines {lines : List Line} {d d' : Draft}
    (h : (lowerLines lines).run d = .ok () d') : braces (allTokens lines) = 0 := by
  induction lines using lowerLines.induct generalizing d d' with
  | case1 => rfl
  | case2 line following c hf => simp only [lowerLines_cons, hf] at h; cases h
  | case3 line following hf ih =>
    obtain ⟨hplain, d₁, h⟩ := plain_of_lowerLines (by simp [hf]) h
    rw [allTokens_cons, braces_append, braces_plain hplain, ih h, Int.add_zero]
  | case4 line following expr hf ih =>
    obtain ⟨hplain, d₁, h⟩ := plain_of_lowerLines (by simp [hf]) h
    rw [allTokens_cons, braces_append, braces_plain hplain, ih h, Int.add_zero]
  | case5 line following x expr hf ih =>
    obtain ⟨hplain, d₁, h⟩ := plain_of_lowerLines (by simp [hf]) h
    rw [allTokens_cons, braces_append, braces_plain hplain, ih h, Int.add_zero]
  | case6 line following c tokens hf ihb ihr =>
    obtain ⟨cond, rest, block, v, d₁, d₂, hg, hv, hb, hbody, hrest⟩ := lowerLines_control_ok hf h
    have hline : line.tokens ++ allTokens following =
        (c.keyword :: "(" :: (cond ++ [")"])) ++ allTokens (⟨line.number, rest⟩ :: following) := by
      simp [Form.eq_of_control hf, eq_of_group? hg]
    rw [allTokens_cons, hline, braces_append, braces_header c (plain_of_lowerExpr hv),
      allTokens_of_cut hb, braces_cons, braces_append, braces_cons closeBrace, braces_openBrace,
      braces_closeBrace, ihb cond rest hg block hb hbody, ihr cond rest hg block hb hrest]
    rfl

/-- Where the scan goes from inside accepted lines, `k` blocks being open before them. -/
theorem lines_of_lowerLines {lines : List Line} {d d' : Draft} (h : (lowerLines lines).run d = .ok () d')
    {k : Nat} {first fresh : Bool} (hf : fresh ↔ first ∨ k = 0) :
    (Exposed k first lines → ∃ f, Scan.lines ⟨k, .idle, fresh⟩ lines = .inside ⟨k, .idle, f⟩) ∧
      (¬Exposed k first lines → Scan.lines ⟨k, .idle, fresh⟩ lines = .stray) := by
  induction lines using lowerLines.induct generalizing d d' k first fresh with
  | case1 => exact ⟨fun _ => ⟨fresh, rfl⟩, fun hn => absurd trivial hn⟩
  | case2 line following c hform => simp only [lowerLines_cons, hform] at h; cases h
  | case3 line following hform ih =>
    obtain ⟨hplain, d₁, h⟩ := plain_of_lowerLines (by simp [hform]) h
    obtain ⟨hs, he⟩ := plain_line hplain following k first fresh
    rw [hs, he]
    exact ih h (by simp)
  | case4 line following expr hform ih =>
    obtain ⟨hplain, d₁, h⟩ := plain_of_lowerLines (by simp [hform]) h
    obtain ⟨hs, he⟩ := plain_line hplain following k first fresh
    rw [hs, he]
    exact ih h (by simp)
  | case5 line following x expr hform ih =>
    obtain ⟨hplain, d₁, h⟩ := plain_of_lowerLines (by simp [hform]) h
    obtain ⟨hs, he⟩ := plain_line hplain following k first fresh
    rw [hs, he]
    exact ih h (by simp)
  | case6 line following c tokens hform ihb ihr =>
    obtain ⟨cond, rest, block, v, d₁, d₂, hg, hv, hb, hbody, hrest⟩ := lowerLines_control_ok hform h
    have htokens : line.tokens = c.keyword :: "(" :: (cond ++ ")" :: rest) := by
      rw [Form.eq_of_control hform, eq_of_group? hg]
    obtain ⟨f, hline⟩ := Scan.lines_header (plain_of_lowerExpr hv) (nested_of_lowerExpr hv) htokens
      following k fresh
    obtain ⟨ls, hsplits, hopen, hstray, hexp⟩ := lines_of_cut hb
    rw [hline, exposed_header (plain_of_lowerExpr hv) htokens, hexp, exposed_splits hsplits,
      braces_of_lowerLines hbody]
    cases fresh with
    | false =>
      -- The header goes unseen, so its brace is stray.
      have hno : ¬(first ∨ (k : Int) = 0) := fun hk => absurd (hf.mpr (by simpa using hk)) (by simp)
      exact ⟨fun hx => absurd hx.1 hno, fun _ => hstray _ rfl⟩
    | true =>
      have hyes : first ∨ (k : Int) = 0 := by simpa using hf
      have hin : false = true ↔ false = true ∨ k + 1 = 0 := by simp
      have hout : block.rest.isNone || decide (k = 0) ↔ block.rest.isNone ∨ k = 0 := by simp
      obtain ⟨hbi, hbs⟩ := ihb cond rest hg block hb hbody hin
      obtain ⟨hri, hrs⟩ := ihr cond rest hg block hb hrest hout
      rw [hopen _ rfl, and_iff_right hyes, Int.add_zero, Int.add_sub_cancel]
      by_cases hx : Exposed (k + 1) false block.body
      · obtain ⟨f, hbi⟩ := hbi hx
        rw [Scan.lines_splits hsplits hbi (Nat.succ_ne_zero k), Scan.leave_eq, and_iff_right hx]
        exact ⟨hri, hrs⟩
      · rw [Scan.lines_splits_stray hsplits (hbs hx)]
        exact ⟨fun hxs => absurd hxs.1 hx, fun _ => rfl⟩

/-! ## One more block -/

section
variable {s s' : Scan} {line : Line} {ls : List Line}

theorem Block.scan_of_lines (h : s.lines (line :: ls) = .inside s') (hd : s'.depth = 0) (n : Nat) :
    scan s line (ls ++ [⟨n, [closeBrace]⟩]) = .ok ⟨line :: ls ++ [⟨n, []⟩], none, []⟩ := by
  obtain ⟨s₁, hl, hs⟩ := Scan.inside_of_lines_cons h
  induction ls generalizing s line s₁ with
  | nil =>
    cases hs
    have hclose : Scan.line { s₁ with fresh := true } [closeBrace] = .closed [] [] := by
      rw [Scan.line, if_pos ⟨rfl, hd⟩]
    simp only [List.nil_append, scan, hl, hclose]
    rfl
  | cons next ls ih =>
    obtain ⟨s₂, hl₂, hs₂⟩ := Scan.inside_of_lines_cons hs
    simp only [List.cons_append, scan, hl, ih hs s₂ hl₂ hs₂]
    rfl

theorem Block.scan_of_stray (h : s.lines (line :: ls) = .stray) (more : List Line) :
    ∃ e, scan s line (ls ++ more) = .error e := by
  induction ls generalizing s line with
  | nil =>
    rcases Scan.stray_of_lines_cons h with hl | ⟨_, _, hs⟩
    · exact ⟨_, by rw [scan.eq_def, hl]⟩
    · cases hs
  | cons next ls ih =>
    rcases Scan.stray_of_lines_cons h with hl | ⟨s₁, hl, hs⟩
    · exact ⟨_, by rw [scan.eq_def, hl]⟩
    · obtain ⟨e, he⟩ := ih hs
      exact ⟨e, by simp only [List.cons_append, scan, hl, he, Except.map]⟩

end

/-- The lines as the body of one more statement, its braces on lines `m` and `n`. -/
def enclose (c : Control) (cond : List Token) (m : Nat) (lines : List Line) (n : Nat) : List Line :=
  ⟨m, c.keyword :: "(" :: (cond ++ [")", openBrace])⟩ :: (lines ++ [⟨n, [closeBrace]⟩])

section
variable {lines : List Line} {d d' : Draft} (h : (lowerLines lines).run d = .ok () d')
include h

theorem cut_enclosed (hx : Exposed 0 true lines) (m n : Nat) :
    Block.cut ⟨m, [openBrace]⟩ (lines ++ [⟨n, [closeBrace]⟩]) =
      .ok ⟨⟨m, []⟩ :: lines ++ [⟨n, []⟩], none, []⟩ := by
  obtain ⟨f, hs⟩ := (lines_of_lowerLines h (k := 0) (by simp : true ↔ true ∨ 0 = 0)).1 hx
  have hm : Scan.lines {} (⟨m, []⟩ :: lines) = .inside ⟨0, .idle, f⟩ := hs
  exact Block.scan_of_lines hm rfl n

theorem cut_enclosed_error (hx : ¬Exposed 0 true lines) (m : Nat) (more : List Line) :
    ∃ e, Block.cut ⟨m, [openBrace]⟩ (lines ++ more) = .error e := by
  have hs := (lines_of_lowerLines h (k := 0) (by simp : true ↔ true ∨ 0 = 0)).2 hx
  have hm : Scan.lines {} (⟨m, []⟩ :: lines) = .stray := hs
  exact Block.scan_of_stray hm more

end

theorem lowerLines_blank (n : Nat) (lines : List Line) :
    lowerLines (⟨n, []⟩ :: lines) = lowerLines lines := by
  rw [lowerLines_cons, Form.ofTokens]

theorem lowerLines_blank_append {front : List Line} (h : ∀ line ∈ front, line.tokens = [])
    (lines : List Line) : lowerLines (front ++ lines) = lowerLines lines := by
  induction front with
  | nil => rfl
  | cons line front ih =>
    obtain ⟨hline, hfront⟩ := List.forall_mem_cons.mp h
    obtain ⟨n, ts⟩ := line
    obtain rfl : ts = [] := hline
    rw [List.cons_append, lowerLines_blank, ih hfront]

section
variable {c : Control} {lines : List Line} {cond : List Token} {d₀ d₁ d d' : Draft} {m n : Nat}

theorem Form.ofTokens_enclose (c : Control) (h : Nested cond) :
    Form.ofTokens (c.keyword :: "(" :: (cond ++ [")", openBrace])) =
      .ok (.control c ("(" :: (cond ++ [")", openBrace]))) :=
  Form.ofTokens_control c h (by decide)

theorem exposed_of_enclose (hl : (lowerLines lines).run d₀ = .ok () d₁) (hn : Nested cond)
    (h : (lowerLines (enclose c cond m lines n)).run d = .ok () d') : Exposed 0 true lines := by
  refine Classical.byContradiction fun hx => ?_
  obtain ⟨_, _, block, _, _, _, hg, _, hcut, _⟩ := lowerLines_control_ok (Form.ofTokens_enclose c hn) h
  have hgroup : group? ("(" :: (cond ++ [")", openBrace])) = some (cond, [openBrace]) :=
    group?_of_nested hn _
  rw [hgroup] at hg
  cases hg
  obtain ⟨e, he⟩ := cut_enclosed_error hl hx m [⟨n, [closeBrace]⟩]
  rw [he] at hcut
  cases hcut

end

/-- Accepted lines are accepted as the body of one more statement just if their headers are exposed,
and the body then gets the code that they get on their own behind the header. -/
theorem lowerLines_enclose_iff {lines : List Line} {cond : List Token} {d₀ d₁ e₀ e₁ : Draft} {v : Operand}
    (hl : (lowerLines lines).run d₀ = .ok () d₁) (hc : (lowerExpr cond).run e₀ = .ok v e₁)
    (c : Control) (m n : Nat) (d : Draft) :
    ((∃ d', (lowerLines (enclose c cond m lines n)).run d = .ok () d') ↔ Exposed 0 true lines) ∧
      ∀ d', (lowerLines (enclose c cond m lines n)).run d = .ok () d' → ∃ w d₂ d₃ body,
        (lowerExpr cond).run ((c.claim d).push (c.enter (c.nextId d))) = .ok w d₂ ∧
        (lowerLines lines).run (d₂.takeTemp.push (c.guard (c.nextId d) (d₂.temps + 1) w)) = .ok () d₃ ∧
        d₃.code = d₂.code ++ c.guard (c.nextId d) (d₂.temps + 1) w ++ body ∧
        d' = d₃.push (c.close (c.nextId d)) := by
  have hnest := nested_of_lowerExpr hc
  have hform := Form.ofTokens_enclose c hnest
  have hgroup : group? ("(" :: (cond ++ [")", openBrace])) = some (cond, [openBrace]) :=
    group?_of_nested hnest _
  obtain ⟨w, d₂, hw⟩ := lowerExpr_accepted hc ((c.claim d).push (c.enter (c.nextId d)))
  obtain ⟨d₃, hd₃⟩ :=
    lowerLines_accepted hl (d₂.takeTemp.push (c.guard (c.nextId d) (d₂.temps + 1) w))
  have hrun (hx : Exposed 0 true lines) :
      (lowerLines (enclose c cond m lines n)).run d = .ok () (d₃.push (c.close (c.nextId d))) := by
    have hbody : (lowerLines (⟨m, []⟩ :: (lines ++ [⟨n, []⟩]))).run
        (d₂.takeTemp.push (c.guard (c.nextId d) (d₂.temps + 1) w)) = .ok () d₃ := by
      rw [lowerLines_blank, run_lowerLines_append _ hd₃, lowerLines_blank, lowerLines_nil]
      rfl
    rw [enclose, run_lowerLines_control hform hgroup hw (cut_enclosed hl hx m n) hbody]
    exact congrArg (EStateM.run · _) lowerLines_nil
  refine ⟨⟨fun ⟨_, hd'⟩ => exposed_of_enclose hl hnest hd', fun hx => ⟨_, hrun hx⟩⟩, fun d' hd' => ?_⟩
  obtain ⟨body, hbody⟩ := lowerLines_emits (covers_namesOf lines) hd₃
  have heq := hrun (exposed_of_enclose hl hnest hd')
  rw [hd'] at heq
  cases heq
  exact ⟨w, d₂, d₃, body, hw, hd₃, by simpa [Draft.takeTemp] using hbody.code_eq, rfl⟩

/-- One header starts its line inside of a block, another stands on a line behind the end of the block. -/
theorem lowerLines_enclose_blocks :
    let lines : List Line := [⟨2, ["if", "(", "1", ")", openBrace]⟩,
      ⟨3, ["while", "(", "x", ")", openBrace, "x", "=", "0", closeBrace]⟩,
      ⟨4, [closeBrace, "if", "(", "2", ")", openBrace, "print", "(", "x", ")", closeBrace]⟩]
    (∃ d₁, (lowerLines lines).run {} = .ok () d₁) ∧ (∃ v e₁, (lowerExpr ["y"]).run {} = .ok v e₁) ∧
      Exposed 0 true lines ∧ ∃ w d₂ d₃ d', (lowerLines (enclose .loop ["y"] 1 lines 5)).run {} = .ok () d' ∧
      (lowerExpr ["y"]).run ((Control.loop.claim {}).push (Control.loop.enter 0)) = .ok w d₂ ∧
      (lowerLines lines).run (d₂.takeTemp.push (Control.loop.guard 0 (d₂.temps + 1) w)) = .ok () d₃ ∧
      d' = d₃.push (Control.loop.close 0) := by
  intro lines
  obtain ⟨d₁, hl⟩ : ∃ d₁, (lowerLines lines).run {} = .ok () d₁ := by
    have hok : (lowerLines lines).run' {} = some () := by decide +kernel
    unfold EStateM.run' at hok
    split at hok
    · rename_i d₁ h
      exact ⟨d₁, h⟩
    · cases hok
  obtain ⟨v, e₁, hc⟩ : ∃ v e₁, (lowerExpr ["y"]).run {} = .ok v e₁ := ⟨_, _, by cbv⟩
  have hx : Exposed 0 true lines := by
    simp [lines, Exposed, ExposedLine, braces, openBrace, closeBrace]
  obtain ⟨haccepted, hcode⟩ := lowerLines_enclose_iff hl hc .loop 1 5 {}
  obtain ⟨d', hd'⟩ := haccepted.mpr hx
  obtain ⟨w, d₂, d₃, _, hw, hd₃, _, hclose⟩ := hcode d' hd'
  exact ⟨⟨d₁, hl⟩, ⟨v, e₁, hc⟩, hx, w, d₂, d₃, d', hd', hw, hd₃, hclose⟩

/-- A block that is accepted on its own and rejected inside one more block. -/
theorem lowerLines_enclose_stray :
    let lines : List Line := [⟨2, ["if", "(", "1", ")", openBrace, "if", "(", "2", ")", openBrace,
      "x", "=", "1", closeBrace, closeBrace]⟩]
    (∃ d', (lowerLines lines).run {} = .ok () d') ∧ (∃ v d', (lowerExpr ["3"]).run {} = .ok v d') ∧
      ¬∃ d', (lowerLines (enclose .loop ["3"] 1 lines 3)).run {} = .ok () d' := by
  intro lines
  have hl : (lowerLines lines).run {} = .ok () ⟨2, 2, 0, 0, ["x"],
      [.test 1 .nonzero (.literal 1), .branch 1 (.ifBody 0) (.ifEnd 0), .label (.ifBody 0),
       .test 2 .nonzero (.literal 2), .branch 2 (.ifBody 1) (.ifEnd 1), .label (.ifBody 1),
       .alloca (.var "x"), .store (.literal 0) (.var "x"), .store (.literal 1) (.var "x"),
       .jump (.ifEnd 1), .label (.ifEnd 1), .jump (.ifEnd 0), .label (.ifEnd 0)]⟩ := by cbv
  have hc : (lowerExpr ["3"]).run {} = .ok (.literal 3) {} := by cbv
  refine ⟨⟨_, hl⟩, ⟨_, _, hc⟩, ?_⟩
  rintro ⟨d', hd'⟩
  have hx := exposed_of_enclose hl (nested_of_lowerExpr hc) hd'
  -- The second header is neither first on its line nor outside of the braces.
  have hinner := hx.1.2.2.2.2.2.1 (.inl rfl)
  exact absurd hinner (by decide)

end SlotCompiler
