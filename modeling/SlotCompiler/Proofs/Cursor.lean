import SlotCompiler.Proofs.Extraction
import SlotCompiler.Proofs.Positions

/-!
# Statements read with a cursor

The statements of a sequence of lines, read by position: a cursor stands on the next line, a block
counts the lines it has used up, and what it leaves of its last line is carried on. No access of such a
run is out of range, on lines of any tokens: `lowerLines_in_range`. The bounds come from the parts, the
three tokens that a form asks for, the position that a group ends at, and the count of a block.
-/

namespace SlotCompiler

namespace Indexed

def lift {ε α : Type} (x : Except ε α) : Except (Trap ε) α := x.mapError .error

/-! ## Forms -/

def printForm (tokens : List Token) : Except (Trap Cause) Form := do
  let last ← minus tokens.length 1
  let opener ← get tokens 1
  let closer ← get tokens last
  if opener = "(" ∧ closer = ")" then do
    let expr ← slice tokens 2 last
    return .print expr
  else .error (.error .statement)

def form (tokens : List Token) : Except (Trap Cause) Form :=
  if tokens = [] then .ok .blank
  else if tokens.length < 3 then .error (.error .short)
  else if tokens.count "(" ≠ tokens.count ")" then .error (.error .parentheses)
  else do
    let first ← get tokens 0
    if first = "print" then printForm tokens
    else if first = "if" then return .control .branch tokens.tail
    else if first = "while" then return .control .loop tokens.tail
    else do
      let second ← get tokens 1
      if second = "=" then do
        let expr ← sliceFrom tokens 2
        return .assign first expr
      else .error (.error .statement)

theorem printForm_eq (first second third : Token) (more : List Token) :
    printForm (first :: second :: third :: more) =
      if second = "(" ∧ (third :: more).getLast? = some ")" then .ok (.print (third :: more).dropLast)
      else .error (.error .statement) := by
  obtain ⟨init, last, hlast⟩ : ∃ init last, third :: more = init ++ [last] :=
    ⟨_, _, (List.dropLast_append_getLast (List.cons_ne_nil third more)).symm⟩
  have hsplit : first :: second :: (init ++ [last]) = (first :: second :: init) ++ [last] := rfl
  have hlen : ((first :: second :: init) ++ [last]).length = (first :: second :: init).length + 1 := by simp
  have hopener : get ((first :: second :: init) ++ [last]) 1 = (.ok second : Except (Trap Cause) Token) := rfl
  rw [hlast, hsplit, printForm, hlen, minus_succ]
  simp only [bind, Except.bind, hopener, get_append, List.getLast?_concat, List.dropLast_concat,
    Option.some.injEq]
  split
  · rw [slice_append (by simp)]
    rfl
  · rfl

theorem form_eq (tokens : List Token) : form tokens = lift (Form.ofTokens tokens) := by
  match tokens with
  | [] => rfl
  | [_] => rfl
  | [_, _] => rfl
  | first :: second :: third :: more =>
    rw [form, Form.ofTokens, if_neg (List.cons_ne_nil _ _), if_neg (by simp), printForm_eq]
    split
    · rfl
    simp only [get, List.getElem?_cons_zero, List.getElem?_cons_succ, bind, Except.bind]
    split
    · split <;> rfl
    split
    · rfl
    split
    · rfl
    split
    · simp [sliceFrom, pure, Except.pure, lift, Except.mapError]
    · rfl

/-! ## Blocks -/

/-- A body, what stands after the closing brace on its line, if anything, and how many lines are used up. -/
structure Cut where
  body : List Line
  rest : Option Line
  consumed : Nat
  deriving DecidableEq, Repr

def Cut.ofBlock (following : List Line) (b : Block) : Cut := ⟨b.body, b.rest, b.consumed following⟩

/-- One token further; closing a block where none is open is a trap. -/
def next (s : Scan) (t : Token) : Except (Trap SyntaxError) Scan := do
  let depth ←
    if t = openBrace then .ok (s.depth + 1) else if t = closeBrace then minus s.depth 1 else .ok s.depth
  return { depth, header := s.header.next s.fresh t, fresh := t = closeBrace ∧ depth = 0 }

def scanLine (tokens : List Token) (idx : Nat) (s : Scan) :
    List Token → Except (Trap SyntaxError) Slice
  | [] => .ok (.inside s)
  | t :: ts =>
    if t = closeBrace ∧ s.depth = 0 then do
      let rest ← sliceFrom tokens (idx + 1)
      return .closed [] rest
    else if t = openBrace ∧ s.header ≠ .opener then .ok .stray
    else do
      let s ← next s t
      let slice ← scanLine tokens (idx + 1) s ts
      return slice.cons t

def scan (following : List Line) (consumed : Nat) (s : Scan) (line : Line) : Except (Trap SyntaxError) Cut := do
  match ← scanLine line.tokens 0 s line.tokens with
  | .stray => .error (.error ⟨line.number, .strayBrace⟩)
  | .closed body rest =>
    return ⟨[⟨line.number, body⟩], if rest = [] then none else some ⟨line.number, rest⟩, consumed⟩
  | .inside s =>
    if h : consumed < following.length then do
      let b ← scan following (consumed + 1) { s with fresh := true } following[consumed]
      return { b with body := line :: b.body }
    else .error (.error ⟨line.number, .unclosed⟩)
termination_by following.length - consumed

def openAt (header : Nat) (following : List Line) (consumed : Nat) (line : Line) :
    Except (Trap SyntaxError) Cut :=
  if line.first? = some openBrace then do
    let ts ← sliceFrom line.tokens 1
    scan following consumed {} ⟨line.number, ts⟩
  else .error (.error ⟨header, .opener⟩)

def cut (header : Line) (following : List Line) : Except (Trap SyntaxError) Cut :=
  if header.isBlank then
    match following[0]? with
    | none => .error (.error ⟨header.number, .opener⟩)
    | some line => openAt header.number following 1 line
  else openAt header.number following 0 header

theorem next_eq {s : Scan} {t : Token} (h : ¬(t = closeBrace ∧ s.depth = 0)) :
    next s t = .ok (s.next t) := by
  have hne : openBrace ≠ closeBrace := by decide
  unfold next Scan.next
  by_cases ho : t = openBrace
  · simp [ho, hne, pure, Except.pure, bind, Except.bind]
  by_cases hc : t = closeBrace
  · obtain ⟨depth, hd⟩ := Nat.exists_eq_succ_of_ne_zero fun hd => h ⟨hc, hd⟩
    simp [hc, hne.symm, hd, minus_succ, pure, Except.pure, bind, Except.bind]
  · simp [ho, hc, pure, Except.pure, bind, Except.bind]

theorem scanLine_eq (front : List Token) (s : Scan) (ts : List Token) :
    scanLine (front ++ ts) front.length s ts = .ok (s.line ts) := by
  induction ts generalizing front s with
  | nil => rfl
  | cons t ts ih =>
    have hmove : front ++ t :: ts = (front ++ [t]) ++ ts := by simp
    have hlen : front.length + 1 = (front ++ [t]).length := by simp
    rw [scanLine, Scan.line, hmove, hlen]
    split
    · rw [sliceFrom_append]; rfl
    · rename_i hc
      split
      · rfl
      · rw [next_eq hc]
        simp only [bind, Except.bind, ih]
        rfl

theorem scanLine_zero (s : Scan) (ts : List Token) : scanLine ts 0 s ts = .ok (s.line ts) :=
  scanLine_eq [] s ts

theorem Cut.ofBlock_closedAt (front following : List Line) (number : Nat) (body rest : List Token) :
    Cut.ofBlock (front ++ following) (.closedAt number body rest following) =
      ⟨[⟨number, body⟩], if rest = [] then none else some ⟨number, rest⟩, front.length⟩ := by
  simp [ofBlock, Block.closedAt, Block.consumed]

theorem scan_eq (front following : List Line) (s : Scan) (line : Line) :
    scan (front ++ following) front.length s line =
      lift ((Block.scan s line following).map (Cut.ofBlock (front ++ following))) := by
  induction following generalizing front s line with
  | nil =>
    rw [scan, scanLine_zero, Block.scan]
    cases s.line line.tokens with
    | inside s' => simp [bind, Except.bind, Except.map, lift, Except.mapError]
    | closed body rest =>
      simp only [Except.map, Cut.ofBlock_closedAt]
      rfl
    | stray => rfl
  | cons l following ih =>
    rw [scan, scanLine_zero, Block.scan]
    cases s.line line.tokens with
    | inside s' =>
      have hlt : front.length < (front ++ l :: following).length := by simp
      have hget : (front ++ l :: following)[front.length] = l := by simp
      have hscan := ih (front ++ [l]) { s' with fresh := true } l
      rw [List.append_assoc, List.singleton_append, List.length_append, List.length_singleton] at hscan
      simp only [bind, Except.bind, dif_pos hlt, hget, hscan]
      cases Block.scan { s' with fresh := true } l following with
      | error e => rfl
      | ok b => rfl
    | closed body rest =>
      simp only [Except.map, Cut.ofBlock_closedAt]
      rfl
    | stray => rfl

theorem openAt_eq (header : Nat) (front following : List Line) (line : Line) :
    openAt header (front ++ following) front.length line =
      lift ((Block.openAt header line following).map (Cut.ofBlock (front ++ following))) := by
  unfold openAt Block.openAt Line.first?
  cases line.tokens with
  | nil => rfl
  | cons t ts =>
    have hslice : sliceFrom (t :: ts) 1 = (.ok ts : Except (Trap SyntaxError) _) := sliceFrom_append [t] ts
    simp only [List.head?_cons, Option.some.injEq, hslice]
    split
    · exact scan_eq front following {} ⟨line.number, ts⟩
    · rfl

theorem cut_eq (header : Line) (following : List Line) :
    cut header following = lift ((Block.cut header following).map (Cut.ofBlock following)) := by
  unfold cut Block.cut Line.isBlank
  cases header.tokens with
  | nil =>
    cases following with
    | nil => rfl
    | cons line following => exact openAt_eq header.number [line] following line
  | cons _ _ => exact openAt_eq header.number [] following header

theorem drop_ofBlock {header : Line} {following : List Line} {b : Block}
    (h : Block.cut header following = .ok b) :
    following.drop (Cut.ofBlock following b).consumed = b.after := by
  obtain ⟨_, _, _, _, _, _, hdrop⟩ := span_of_cut h
  exact hdrop

theorem bulk_cut_lt {header : Line} {following : List Line} {c : Cut} (h : cut header following = .ok c) :
    bulk c.body + bulk (c.rest.toList ++ following.drop c.consumed) < bulk (header :: following) := by
  rw [cut_eq] at h
  cases hb : Block.cut header following with
  | error e => rw [hb] at h; cases h
  | ok b =>
    rw [hb] at h
    cases h
    rw [drop_ofBlock hb]
    exact Block.bulk_cut_lt hb

/-! ## Statements -/

def atLine {α : Type} (line : Nat) (x : EStateM (Trap Cause) Draft α) : EStateM (Trap SyntaxError) Draft α :=
  x.adaptExcept (Trap.map (⟨line, ·⟩))

def lowerPrint (expr : List Token) : EStateM (Trap Cause) Draft Unit := do
  let value ← lowerExpr expr
  emit [.print value]

def lowerAssign (target : Token) (expr : List Token) : EStateM (Trap Cause) Draft Unit := do
  let slot ← checked (declare target)
  let value ← lowerExpr expr
  emit [.store value slot]

def lowerTest (cond : List Token) (body exit : Label) : EStateM (Trap Cause) Draft Unit := do
  let value ← lowerExpr cond
  let dest ← freshTemp
  emit [.test dest .nonzero value, .branch dest body exit, .label body]

/-- The line that comes next, and where the cursor stands behind it. A line that is carried on does not
move the cursor. -/
def nextLine (lines : List Line) (cursor : Nat) : Option Line → Option (Line × Nat)
  | some line => some (line, cursor)
  | none => lines[cursor]?.map (·, cursor + 1)

theorem nextLine_eq_some {lines : List Line} {cursor next : Nat} {carried : Option Line} {line : Line}
    (h : nextLine lines cursor carried = some (line, next)) :
    carried.toList ++ lines.drop cursor = line :: lines.drop next := by
  cases carried with
  | some l => cases h; rfl
  | none =>
    obtain ⟨l, hl, heq⟩ := Option.map_eq_some_iff.mp h
    cases heq
    obtain ⟨hlt, rfl⟩ := List.getElem?_eq_some_iff.mp hl
    exact List.drop_eq_getElem_cons hlt

def lowerLines (lines : List Line) (cursor : Nat) (carried : Option Line) :
    EStateM (Trap SyntaxError) Draft Unit :=
  match _hn : nextLine lines cursor carried with
  | none => pure ()
  | some (line, cursor) =>
    match _hf : sliceFrom lines cursor with
    | .error e => throw e
    | .ok following =>
      match form line.tokens with
      | .error e => throw (e.map (⟨line.number, ·⟩))
      | .ok .blank => lowerLines lines cursor none
      | .ok (.print expr) => do
        atLine line.number (lowerPrint expr)
        lowerLines lines cursor none
      | .ok (.assign target expr) => do
        atLine line.number (lowerAssign target expr)
        lowerLines lines cursor none
      | .ok (.control c _) => do
        let id ← c.fresh
        emit (c.enter id)
        match _hg : group line.tokens 1 with
        | .error e => throw (e.map (⟨line.number, ·⟩))
        | .ok (cond, after) =>
          atLine line.number (lowerTest cond (c.body id) (c.exit id))
          match _hr : sliceFrom line.tokens after with
          | .error e => throw e
          | .ok rest =>
            match _hc : cut ⟨line.number, rest⟩ following with
            | .error e => throw e
            | .ok block =>
              lowerLines block.body 0 none
              emit [.jump (c.back id), .label (c.exit id)]
              lowerLines lines (cursor + block.consumed) block.rest
termination_by bulk (carried.toList ++ lines.drop cursor)
decreasing_by
  all_goals
    rw [nextLine_eq_some _hn]
    simp only [bulk_cons, Option.toList_none, List.nil_append, List.drop_zero]
  · omega
  · omega
  · omega
  all_goals
    have hg := length_of_group _hg
    have hr := congrArg List.length (eq_of_sliceFrom _hr)
    have hc := bulk_cut_lt _hc
    rw [List.length_drop] at hr
    rw [eq_of_sliceFrom _hf, List.drop_drop] at hc
    simp only [bulk_cons] at hc
    omega

theorem atLine_checked {α : Type} (line : Nat) (x : EStateM Cause Draft α) :
    atLine line (checked x) = checked (SlotCompiler.atLine line x) := by
  apply EStateM.ext
  intro d
  simp only [atLine, checked, SlotCompiler.atLine, EStateM.run_adaptExcept]
  cases x.run d <;> rfl

theorem lowerPrint_eq (expr : List Token) : lowerPrint expr = checked (SlotCompiler.lowerPrint expr) := by
  simp only [lowerPrint, SlotCompiler.lowerPrint, lowerExpr_eq, checked_bind]
  rfl

theorem lowerAssign_eq (target : Token) (expr : List Token) :
    lowerAssign target expr = checked (SlotCompiler.lowerAssign target expr) := by
  simp only [lowerAssign, SlotCompiler.lowerAssign, lowerExpr_eq, checked_bind]
  rfl

theorem lowerTest_eq (cond : List Token) (body exit : Label) :
    lowerTest cond body exit = checked (SlotCompiler.lowerTest cond body exit) := by
  simp only [lowerTest, SlotCompiler.lowerTest, lowerExpr_eq, checked_bind]
  rfl

theorem group_of_control {tokens ts cond rest : List Token} {c : Control}
    (hf : Form.ofTokens tokens = .ok (.control c ts)) (hg : group? ts = some (cond, rest)) :
    group tokens 1 = .ok (cond, cond.length + 3) ∧
      sliceFrom tokens (cond.length + 3) = (.ok rest : Except (Trap SyntaxError) (List Token)) := by
  have htokens := Form.eq_of_control hf
  constructor
  · have hgroup := group_append [c.keyword] ts
    rw [hg] at hgroup
    rw [htokens]
    refine hgroup.trans (congrArg (fun n => Except.ok (cond, n)) ?_)
    simp only [List.length_singleton]
    omega
  · have hsplit : tokens = (c.keyword :: "(" :: (cond ++ [")"])) ++ rest := by
      rw [htokens, eq_of_group? hg]
      simp
    have hlen : cond.length + 3 = (c.keyword :: "(" :: (cond ++ [")"])).length := by simp
    rw [hsplit, hlen]
    exact sliceFrom_append _ rest

theorem group_of_control_none {tokens ts : List Token} {c : Control}
    (hf : Form.ofTokens tokens = .ok (.control c ts)) (hg : group? ts = none) :
    group tokens 1 = .error (.error .group) := by
  have hgroup := group_append [c.keyword] ts
  rw [hg] at hgroup
  rw [Form.eq_of_control hf]
  exact hgroup

section
variable {lines following : List Line} {cursor next : Nat} {carried : Option Line} {line : Line}

theorem lowerLines_nil (h : nextLine lines cursor carried = none) :
    lowerLines lines cursor carried = pure () := by
  rw [lowerLines]
  split
  · rfl
  · rename_i h'; rw [h] at h'; cases h'

theorem lowerLines_cons (h : nextLine lines cursor carried = some (line, next)) (hle : next ≤ lines.length) :
    lowerLines lines cursor carried = (
      match Form.ofTokens line.tokens with
      | .error c => throw (.error ⟨line.number, c⟩)
      | .ok .blank => lowerLines lines next none
      | .ok (.print expr) => do
        checked (SlotCompiler.atLine line.number (SlotCompiler.lowerPrint expr))
        lowerLines lines next none
      | .ok (.assign target expr) => do
        checked (SlotCompiler.atLine line.number (SlotCompiler.lowerAssign target expr))
        lowerLines lines next none
      | .ok (.control c tokens) => do
        let id ← c.fresh
        emit (c.enter id)
        match group? tokens with
        | none => throw (.error ⟨line.number, .group⟩)
        | some (cond, rest) =>
          checked (SlotCompiler.atLine line.number (SlotCompiler.lowerTest cond (c.body id) (c.exit id)))
          match Block.cut ⟨line.number, rest⟩ (lines.drop next) with
          | .error e => throw (.error e)
          | .ok block =>
            lowerLines block.body 0 none
            emit [.jump (c.back id), .label (c.exit id)]
            lowerLines lines (next + block.consumed (lines.drop next)) block.rest) := by
  have hfollowing : sliceFrom lines next = (.ok (lines.drop next) : Except (Trap SyntaxError) _) := if_pos hle
  rw [lowerLines]
  split <;> rename_i h' <;> rw [h] at h' <;> cases h'
  split <;> rename_i h' <;> rw [hfollowing] at h' <;> cases h'
  rw [form_eq]
  cases hs : Form.ofTokens line.tokens with
  | error c => rfl
  | ok form =>
    cases form with
    | blank => rfl
    | print expr => simp only [lift, Except.mapError, lowerPrint_eq, atLine_checked]
    | assign target expr => simp only [lift, Except.mapError, lowerAssign_eq, atLine_checked]
    | control c tokens =>
      refine bind_congr fun id => bind_congr fun _ => ?_
      cases hg : group? tokens with
      | none =>
        have hgroup := group_of_control_none hs hg
        split <;> rename_i h' <;> rw [hgroup] at h' <;> cases h'
        rfl
      | some parts =>
        obtain ⟨cond, rest⟩ := parts
        obtain ⟨hgroup, hrest⟩ := group_of_control hs hg
        have hcut := cut_eq ⟨line.number, rest⟩ (lines.drop next)
        split <;> rename_i h' <;> rw [hgroup] at h' <;> cases h'
        rw [lowerTest_eq, atLine_checked]
        refine bind_congr fun _ => ?_
        split <;> rename_i h' <;> rw [hrest] at h' <;> cases h'
        cases hb : Block.cut ⟨line.number, rest⟩ (lines.drop next) with
        | error e =>
          rw [hb] at hcut
          split <;> rename_i h' <;> rw [hcut] at h' <;> cases h'
          rfl
        | ok block =>
          rw [hb] at hcut
          split <;> rename_i h' <;> rw [hcut] at h' <;> cases h'
          rfl

theorem nextLine_of_nil (h : carried.toList ++ lines.drop cursor = []) :
    nextLine lines cursor carried = none := by
  cases carried with
  | some l => cases h
  | none => simpa [nextLine] using h

theorem nextLine_of_cons (hle : cursor ≤ lines.length)
    (h : carried.toList ++ lines.drop cursor = line :: following) :
    ∃ next, nextLine lines cursor carried = some (line, next) ∧ next ≤ lines.length ∧
      lines.drop next = following := by
  cases carried with
  | some l =>
    obtain ⟨rfl, hdrop⟩ := List.cons.inj h
    exact ⟨cursor, rfl, hle, hdrop⟩
  | none =>
    have hlt : cursor < lines.length := by
      have hlen := congrArg List.length h
      simp at hlen
      omega
    rw [Option.toList_none, List.nil_append, List.drop_eq_getElem_cons hlt] at h
    obtain ⟨rfl, hdrop⟩ := List.cons.inj h
    exact ⟨cursor + 1, by simp [nextLine, hlt], hlt, hdrop⟩

/-- From a cursor within the lines, reading by position does what the lowering does. The cursor stays
within the lines, because a block uses up lines that there are. -/
theorem lowerLines_eq (lines : List Line) (cursor : Nat) (carried : Option Line) (hle : cursor ≤ lines.length) :
    lowerLines lines cursor carried = checked (SlotCompiler.lowerLines (carried.toList ++ lines.drop cursor)) := by
  generalize hl : carried.toList ++ lines.drop cursor = ls
  induction ls using SlotCompiler.lowerLines.induct generalizing lines cursor carried with
  | case1 =>
    rw [lowerLines_nil (nextLine_of_nil hl), SlotCompiler.lowerLines_nil]
    rfl
  | case2 line following c hf =>
    obtain ⟨next, hn, hnext, rfl⟩ := nextLine_of_cons hle hl
    simp only [lowerLines_cons hn hnext, SlotCompiler.lowerLines_cons, hf]
    rfl
  | case3 line following hf ih =>
    obtain ⟨next, hn, hnext, rfl⟩ := nextLine_of_cons hle hl
    simp only [lowerLines_cons hn hnext, SlotCompiler.lowerLines_cons, hf, ih lines next none hnext rfl]
  | case4 line following expr hf ih =>
    obtain ⟨next, hn, hnext, rfl⟩ := nextLine_of_cons hle hl
    simp only [lowerLines_cons hn hnext, SlotCompiler.lowerLines_cons, hf, ih lines next none hnext rfl,
      checked_bind]
  | case5 line following x expr hf ih =>
    obtain ⟨next, hn, hnext, rfl⟩ := nextLine_of_cons hle hl
    simp only [lowerLines_cons hn hnext, SlotCompiler.lowerLines_cons, hf, ih lines next none hnext rfl,
      checked_bind]
  | case6 line following c tokens hf ihb ihr =>
    obtain ⟨next, hn, hnext, rfl⟩ := nextLine_of_cons hle hl
    simp only [lowerLines_cons hn hnext, SlotCompiler.lowerLines_cons, hf, checked_bind, checked_fresh]
    refine bind_congr fun id => bind_congr fun _ => ?_
    cases hg : group? tokens with
    | none => rfl
    | some parts =>
      obtain ⟨cond, rest⟩ := parts
      simp only [checked_bind]
      refine bind_congr fun _ => ?_
      cases hb : Block.cut ⟨line.number, rest⟩ (lines.drop next) with
      | error e => rfl
      | ok block =>
        have hbody := ihb cond rest hg block hb block.body 0 none (Nat.zero_le _) rfl
        -- Behind the block, the cursor stands on the lines that are left.
        have hdrop : lines.drop (next + block.consumed (lines.drop next)) = block.after := by
          rw [← List.drop_drop]
          exact drop_ofBlock hb
        have hcursor : next + block.consumed (lines.drop next) ≤ lines.length := by
          simp only [Block.consumed, List.length_drop]
          omega
        have hrest := ihr cond rest hg block hb lines _ block.rest hcursor (congrArg _ hdrop)
        simp only [hbody, hrest, checked_bind]
        rfl

end

-- A cursor beyond the last line would be a trap.
example : (lowerLines [] 1 (some ⟨1, []⟩)).run {} = .error .range {} := by cbv

end Indexed

/-- On lines of any tokens and from any draft, with the names of the lines hoisted or not, every position
that a run reads is within its list, and no count falls below zero: nothing catches a trap, and the run
does not end in one. It ends as it does when the lists are taken apart from the front. -/
theorem lowerLines_in_range (lines : List Line) (d : Draft) :
    (∀ d', (Indexed.lowerLines lines 0 none).run d ≠ .error .range d') ∧
      (Indexed.lowerLines lines 0 none).run d =
        match (lowerLines lines).run d with
        | .ok _ d' => .ok () d'
        | .error e d' => .error (.error e) d' := by
  have heq : Indexed.lowerLines lines 0 none = checked (lowerLines lines) :=
    Indexed.lowerLines_eq lines 0 none (Nat.zero_le _)
  rw [heq]
  refine ⟨checked_ne_range _ _, ?_⟩
  rw [checked, EStateM.run_adaptExcept]
  cases (lowerLines lines).run d <;> rfl

end SlotCompiler
