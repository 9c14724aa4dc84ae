import SlotCompiler.Source.Line
import SlotCompiler.Source.SyntaxError

/-!
# Blocks

A header owns the block that opens right after its condition, or at the start of the next line.
`Block.cut` takes the block out of the lines that follow, one body line for each line it runs over,
and hands back what stands after the closing brace. An opening brace inside is allowed only where an
inner header has just ended its condition.
-/

namespace SlotCompiler

/-- Where the scan of a body stands with respect to an inner header. -/
inductive Header
  | idle
  | condition (depth : Nat) -- inside a condition, with this many open parentheses
  | opener -- right after a condition, where a brace may open
  deriving DecidableEq, Repr

/-- One token further; `fresh` where a statement may start. -/
def Header.next (h : Header) (fresh : Bool) (t : Token) : Header :=
  if fresh ∧ (t = "if" ∨ t = "while") then .condition 0
  else
    match h with
    | .condition depth =>
      if t = "(" then .condition (depth + 1)
      else if t = ")" then if depth = 1 then .opener else .condition (depth - 1)
      else .condition depth
    | _ => .idle

/-- The inner blocks that are open, the inner header, and whether a statement may start. -/
structure Scan where
  depth : Nat := 0
  header : Header := .idle
  fresh : Bool := true
  deriving DecidableEq, Repr

def Scan.next (s : Scan) (t : Token) : Scan where
  depth := if t = openBrace then s.depth + 1 else if t = closeBrace then s.depth - 1 else s.depth
  header := s.header.next s.fresh t
  fresh := t = closeBrace ∧ s.depth = 1

/-- What one line does to an open block. -/
inductive Slice
  | inside (s : Scan) -- all of the line lies in the body
  | closed (body rest : List Token) -- the block closes between the two
  | stray -- an opening brace belongs to no header
  deriving DecidableEq, Repr

def Slice.cons (t : Token) : Slice → Slice
  | .closed body rest => .closed (t :: body) rest
  | s => s

def Scan.line (s : Scan) : List Token → Slice
  | [] => .inside s
  | t :: ts =>
    if t = closeBrace ∧ s.depth = 0 then .closed [] ts
    else if t = openBrace ∧ s.header ≠ .opener then .stray
    else ((s.next t).line ts).cons t

/-- A body, what stands after the closing brace on its line, if anything, and the lines after. -/
structure Block where
  body : List Line
  rest : Option Line
  after : List Line
  deriving DecidableEq, Repr

namespace Block

def remaining (b : Block) : List Line := b.rest.toList ++ b.after

/-- How many of the lines that follow the header the block has used up. -/
def consumed (b : Block) (following : List Line) : Nat := following.length - b.after.length

/-- The block whose closing brace stands on line `number`, between `body` and `rest`. -/
def closedAt (number : Nat) (body rest : List Token) (after : List Line) : Block where
  body := [⟨number, body⟩]
  rest := if rest = [] then none else some ⟨number, rest⟩
  after := after

/-- Scans `line` and, as long as the block is open, the lines that follow. -/
def scan (s : Scan) (line : Line) (following : List Line) : Except SyntaxError Block :=
  match s.line line.tokens with
  | .stray => .error ⟨line.number, .strayBrace⟩
  | .closed body rest => .ok (closedAt line.number body rest following)
  | .inside s =>
    match following with
    | [] => .error ⟨line.number, .unclosed⟩
    | next :: following =>
      (scan { s with fresh := true } next following).map fun b => { b with body := line :: b.body }

/-- Scans from the brace at the front of `line`; `header` is blamed if there is none. -/
def openAt (header : Nat) (line : Line) (following : List Line) : Except SyntaxError Block :=
  match line.tokens with
  | [] => .error ⟨header, .opener⟩
  | t :: ts =>
    if t = openBrace then scan {} ⟨line.number, ts⟩ following else .error ⟨header, .opener⟩

/-- The block of a header, from what stands after its condition and the lines that follow. -/
def cut (header : Line) (following : List Line) : Except SyntaxError Block :=
  match header.tokens, following with
  | [], [] => .error ⟨header.number, .opener⟩
  | [], next :: following => openAt header.number next following
  | _ :: _, _ => openAt header.number header following

end Block

/-! ## Size -/

theorem Scan.line_eq_closed {s : Scan} {ts body rest : List Token}
    (h : s.line ts = .closed body rest) : ts = body ++ closeBrace :: rest := by
  induction ts generalizing s body rest with
  | nil => cases h
  | cons t ts ih =>
    unfold Scan.line at h
    split at h
    · rename_i ht; cases h; simp [ht.1]
    · split at h
      · cases h
      · cases hl : (s.next t).line ts with
        | inside s' => rw [hl] at h; cases h
        | stray => rw [hl] at h; cases h
        | closed b r => rw [hl] at h; cases h; simp [ih hl]

namespace Block

theorem bulk_closedAt_le {line : Line} {body rest : List Token}
    (h : line.tokens = body ++ closeBrace :: rest) (after : List Line) :
    bulk (closedAt line.number body rest after).body +
      bulk (closedAt line.number body rest after).remaining ≤ bulk (line :: after) := by
  by_cases hr : rest = []
  · simp [closedAt, remaining, hr, h]
  · simp [closedAt, remaining, hr, h]
    omega

theorem bulk_scan_le {s : Scan} {line : Line} {following : List Line} {b : Block}
    (h : scan s line following = .ok b) :
    bulk b.body + bulk b.remaining ≤ bulk (line :: following) := by
  induction following generalizing s line b with
  | nil =>
    rw [scan] at h
    split at h
    · cases h
    · rename_i body rest hl
      cases h
      exact bulk_closedAt_le (Scan.line_eq_closed hl) _
    · cases h
  | cons next following ih =>
    rw [scan] at h
    split at h
    · cases h
    · rename_i body rest hl
      cases h
      exact bulk_closedAt_le (Scan.line_eq_closed hl) _
    · rename_i s' hl
      cases hb : scan { s' with fresh := true } next following with
      | error e => simp [hb, Except.map] at h
      | ok b' =>
        simp only [hb, Except.map, Except.ok.injEq] at h
        subst h
        have := ih hb
        simp only [bulk_cons, remaining] at this ⊢
        omega

theorem bulk_openAt_lt {header : Nat} {line : Line} {following : List Line} {b : Block}
    (h : openAt header line following = .ok b) :
    bulk b.body + bulk b.remaining < bulk (line :: following) := by
  unfold openAt at h
  split at h
  · cases h
  · rename_i t ts ht
    split at h
    · have := bulk_scan_le h
      simp only [bulk_cons, ht, List.length_cons] at this ⊢
      omega
    · cases h

/-- Cutting a block uses up at least its opening brace. -/
theorem bulk_cut_lt {header : Line} {following : List Line} {b : Block}
    (h : cut header following = .ok b) :
    bulk b.body + bulk b.remaining < bulk (header :: following) := by
  unfold cut at h
  split at h
  · cases h
  · rename_i next following _
    have := bulk_openAt_lt h
    rw [bulk_cons header]; omega
  · exact bulk_openAt_lt h

end Block

end SlotCompiler
