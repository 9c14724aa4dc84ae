import SlotCompiler.Source.Block

/-!
# What cutting a block leaves of the lines

The lines a block runs over are its body, with the brace that opens it in front, and what is left
behind the brace that closes it. `splits_of_cut` says so of every block that is cut; a token of the
body or of the rest is then a token of the lines. The cut looks at no number and at few tokens, so it
goes the same way on lines that differ in the others: `Block.cut_map`.
-/

namespace SlotCompiler

/-- The lines hold the body of the block, a closing brace, and the rest. -/
inductive Splits : List Line → Block → Prop
  | here {line : Line} {body rest : List Token} {after : List Line} :
    line.tokens = body ++ closeBrace :: rest →
    Splits (line :: after) (Block.closedAt line.number body rest after)
  | next {line : Line} {lines : List Line} {b : Block} :
    Splits lines b → Splits (line :: lines) { b with body := line :: b.body }

theorem splits_of_scan {s : Scan} {line : Line} {following : List Line} {b : Block}
    (h : Block.scan s line following = .ok b) : Splits (line :: following) b := by
  induction following generalizing s line b with
  | nil =>
    rw [Block.scan] at h
    split at h
    · cases h
    · rename_i body rest hl
      cases h
      exact .here (Scan.line_eq_closed hl)
    · cases h
  | cons next following ih =>
    rw [Block.scan] at h
    split at h
    · cases h
    · rename_i body rest hl
      cases h
      exact .here (Scan.line_eq_closed hl)
    · rename_i s' hl
      cases hb : Block.scan { s' with fresh := true } next following with
      | error e => simp only [hb, Except.map] at h; cases h
      | ok b' => simp only [hb, Except.map] at h; cases h; exact .next (ih hb)

/-- The block of a header is scanned from behind its brace, on the line of the header or the next. -/
theorem cut_eq_ok_iff {header : Line} {following : List Line} {b : Block} :
    Block.cut header following = .ok b ↔
      ∃ line ts after, line.tokens = openBrace :: ts ∧ Block.scan {} ⟨line.number, ts⟩ after = .ok b ∧
        (header = line ∧ following = after ∨ header.tokens = [] ∧ following = line :: after) := by
  have key : ∀ {n line after}, Block.openAt n line after = .ok b ↔
      ∃ ts, line.tokens = openBrace :: ts ∧ Block.scan {} ⟨line.number, ts⟩ after = .ok b := by
    intro n line after
    unfold Block.openAt
    cases line.tokens with
    | nil => simp
    | cons t ts =>
      by_cases ho : t = openBrace
      · simp [ho]
      · simp [ho]
  constructor
  · intro h
    unfold Block.cut at h
    split at h
    · cases h
    · rename_i next after hh
      obtain ⟨ts, ht, hs⟩ := key.mp h
      exact ⟨next, ts, after, ht, hs, .inr ⟨hh, rfl⟩⟩
    · obtain ⟨ts, ht, hs⟩ := key.mp h
      exact ⟨header, ts, _, ht, hs, .inl ⟨rfl, rfl⟩⟩
  · rintro ⟨line, ts, after, ht, hs, ⟨rfl, rfl⟩ | ⟨hh, rfl⟩⟩
    · simp only [Block.cut, ht]
      exact key.mpr ⟨ts, ht, hs⟩
    · simp only [Block.cut, hh]
      exact key.mpr ⟨ts, ht, hs⟩

theorem splits_of_cut {header : Line} {following : List Line} {b : Block}
    (h : Block.cut header following = .ok b) :
    ∃ line ts after, line.tokens = openBrace :: ts ∧ Splits (⟨line.number, ts⟩ :: after) b ∧
      (header = line ∧ following = after ∨ header.tokens = [] ∧ following = line :: after) := by
  obtain ⟨line, ts, after, ht, hs, hline⟩ := cut_eq_ok_iff.mp h
  exact ⟨line, ts, after, ht, splits_of_scan hs, hline⟩

/-- The tokens of the lines, one line after the other. -/
abbrev allTokens (lines : List Line) : List Token := lines.flatMap Line.tokens

theorem allTokens_cons (line : Line) (lines : List Line) :
    allTokens (line :: lines) = line.tokens ++ allTokens lines := rfl

theorem allTokens_remaining (number : Nat) (body rest : List Token) (after : List Line) :
    allTokens (Block.closedAt number body rest after).remaining = rest ++ allTokens after := by
  by_cases h : rest = [] <;> simp [Block.closedAt, Block.remaining, h]

theorem Splits.allTokens_eq {lines : List Line} {b : Block} (h : Splits lines b) :
    allTokens lines = allTokens b.body ++ closeBrace :: allTokens b.remaining := by
  induction h with
  | here ht => rw [allTokens_remaining]; simp [Block.closedAt, ht]
  | next _ ih => simp only [Block.remaining] at ih; simp [ih, Block.remaining]

theorem allTokens_of_cut {header : Line} {following : List Line} {b : Block}
    (h : Block.cut header following = .ok b) : allTokens (header :: following) =
      openBrace :: (allTokens b.body ++ closeBrace :: allTokens b.remaining) := by
  obtain ⟨line, ts, after, ht, hs, ⟨rfl, rfl⟩ | ⟨hh, rfl⟩⟩ := splits_of_cut h
  · rw [← hs.allTokens_eq]; simp [ht]
  · rw [← hs.allTokens_eq]; simp [ht, hh]

/-! ## Other numbers and other tokens -/

/-- The tokens that the scan of a block tells from others. -/
def scanned : List Token := [openBrace, closeBrace, "if", "while", "(", ")"]

/-- The scan of a block sees no difference between a token and its image. -/
def Unseen (g : Token → Token) : Prop := ∀ t ∈ scanned, ∀ u, g u = t ↔ u = t

def Line.map (f : Nat → Nat) (g : Token → Token) (l : Line) : Line := ⟨f l.number, l.tokens.map g⟩

def Slice.map (g : Token → Token) : Slice → Slice
  | .closed body rest => .closed (body.map g) (rest.map g)
  | s => s

section
variable {g : Token → Token} (hg : Unseen g)
include hg

theorem Header.next_map (h : Header) (fresh : Bool) (t : Token) : h.next fresh (g t) = h.next fresh t := by
  unfold next
  simp only [hg "if" (by decide), hg "while" (by decide), hg "(" (by decide), hg ")" (by decide)]

theorem Scan.next_map (s : Scan) (t : Token) : s.next (g t) = s.next t := by
  unfold next
  simp only [hg openBrace (by decide), hg closeBrace (by decide), Header.next_map hg]

theorem Scan.line_map (s : Scan) (ts : List Token) : s.line (ts.map g) = (s.line ts).map g := by
  induction ts generalizing s with
  | nil => rfl
  | cons t ts ih =>
    rw [List.map_cons, line, line]
    simp only [hg openBrace (by decide), hg closeBrace (by decide), next_map hg, ih]
    split
    · rfl
    split
    · rfl
    · cases (s.next t).line ts <;> rfl

end

namespace Block

def map (f : Nat → Nat) (g : Token → Token) (b : Block) : Block where
  body := b.body.map (Line.map f g)
  rest := b.rest.map (Line.map f g)
  after := b.after.map (Line.map f g)

def mapResult (f : Nat → Nat) (g : Token → Token) : Except SyntaxError Block → Except SyntaxError Block
  | .ok b => .ok (b.map f g)
  | .error e => .error ⟨f e.line, e.cause⟩

theorem body_map (f : Nat → Nat) (g : Token → Token) (b : Block) :
    (b.map f g).body = b.body.map (Line.map f g) := rfl

theorem remaining_map (f : Nat → Nat) (g : Token → Token) (b : Block) :
    (b.map f g).remaining = b.remaining.map (Line.map f g) := by
  unfold remaining map
  cases b.rest <;> simp

theorem closedAt_map (f : Nat → Nat) (g : Token → Token) (n : Nat) (body rest : List Token)
    (after : List Line) : closedAt (f n) (body.map g) (rest.map g) (after.map (Line.map f g)) =
      (closedAt n body rest after).map f g := by
  unfold closedAt map
  by_cases h : rest = []
  · simp [h, Line.map]
  · simp [h, Line.map]

section
variable (f : Nat → Nat) {g : Token → Token} (hg : Unseen g) (line : Line) (following : List Line)
include hg

theorem scan_map (s : Scan) : scan s (line.map f g) (following.map (Line.map f g)) =
    mapResult f g (scan s line following) := by
  induction following generalizing s line with
  | nil =>
    rw [List.map_nil, scan, scan]
    simp only [Line.map, Scan.line_map hg]
    cases s.line line.tokens with
    | inside s' => rfl
    | closed body rest => exact congrArg Except.ok (closedAt_map f g line.number body rest [])
    | stray => rfl
  | cons next following ih =>
    rw [List.map_cons, scan, scan]
    simp only [ih]
    simp only [Line.map, Scan.line_map hg]
    cases s.line line.tokens with
    | inside s' =>
      simp only [Slice.map]
      cases scan { s' with fresh := true } next following with
      | ok b => rfl
      | error e => rfl
    | closed body rest =>
      exact congrArg Except.ok (closedAt_map f g line.number body rest (next :: following))
    | stray => rfl

theorem openAt_map (n : Nat) : openAt (f n) (line.map f g) (following.map (Line.map f g)) =
    mapResult f g (openAt n line following) := by
  obtain ⟨m, ts⟩ := line
  unfold openAt
  cases ts with
  | nil => rfl
  | cons t ts =>
    simp only [Line.map, List.map_cons, hg openBrace (by decide)]
    split
    · exact scan_map f hg ⟨m, ts⟩ following {}
    · rfl

theorem cut_map : cut (line.map f g) (following.map (Line.map f g)) = mapResult f g (cut line following) := by
  obtain ⟨n, ts⟩ := line
  unfold cut
  cases ts with
  | nil =>
    cases following with
    | nil => rfl
    | cons next following => exact openAt_map f hg next following n
  | cons t ts => exact openAt_map f hg ⟨n, t :: ts⟩ following n

end

end Block

end SlotCompiler
