import SlotCompiler.Proofs.Lexing
import SlotCompiler.Proofs.Nesting

/-!
# Line numbers only blame

The lowering looks at the number of a line just to blame a failure on it. `lowerLines_renumber`: with
other numbers on the lines, the run takes the same turns and the blame moves along. Blank lines in
front of a source renumber its lines, so they move the blame and leave accepted code as it is.
-/

namespace SlotCompiler

def Line.renumber (f : Nat → Nat) (l : Line) : Line := { l with number := f l.number }

def SyntaxError.renumber (f : Nat → Nat) (e : SyntaxError) : SyntaxError := { e with line := f e.line }

@[simp] theorem Line.renumber_tokens (f : Nat → Nat) (l : Line) : (l.renumber f).tokens = l.tokens := rfl

theorem Line.renumber_eq_map (f : Nat → Nat) : Line.renumber f = Line.map f id := by
  funext l
  simp [renumber, map]

theorem cut_renumber (f : Nat → Nat) (line : Line) (following : List Line) :
    Block.cut (line.renumber f) (following.map (Line.renumber f)) =
      Block.mapResult f id (Block.cut line following) := by
  rw [Line.renumber_eq_map]
  exact Block.cut_map f (fun _ _ _ => Iff.rfl) line following

/-! ## Statements -/

section
variable {ε ε' σ α β : Type} (f : ε → ε')

theorem adaptExcept_bind (x : EStateM ε σ α) (g : α → EStateM ε σ β) :
    (x >>= g).adaptExcept f = x.adaptExcept f >>= fun a => (g a).adaptExcept f := by
  apply EStateM.ext
  intro s
  rw [EStateM.run_adaptExcept, EStateM.run_bind, EStateM.run_bind, EStateM.run_adaptExcept]
  cases x.run s with
  | ok a s' => simp only [EStateM.run_adaptExcept]
  | error e s' => rfl

end

theorem adaptExcept_atLine {α : Type} (f : Nat → Nat) (n : Nat) (x : EStateM Cause Draft α) :
    (atLine n x).adaptExcept (SyntaxError.renumber f) = atLine (f n) x := by
  apply EStateM.ext
  intro d
  simp only [atLine, EStateM.run_adaptExcept]
  cases x.run d <;> rfl

theorem adaptExcept_fresh {ε ε' : Type} (f : ε → ε') (c : Control) :
    (c.fresh : EStateM ε Draft Nat).adaptExcept f = c.fresh := by
  cases c <;> rfl

/-- Renumbering the lines maps the line that is blamed, and changes nothing else. -/
theorem lowerLines_map_renumber (f : Nat → Nat) (lines : List Line) :
    lowerLines (lines.map (Line.renumber f)) = (lowerLines lines).adaptExcept (SyntaxError.renumber f) := by
  induction lines using lowerLines.induct with
  | case1 => rw [List.map_nil, lowerLines_nil]; rfl
  | case2 line following c hf =>
    simp only [List.map_cons, lowerLines_cons, Line.renumber_tokens, hf]
    rfl
  | case3 line following hf ih =>
    simp only [List.map_cons, lowerLines_cons, Line.renumber_tokens, hf, ih]
  | case4 line following expr hf ih =>
    simp only [List.map_cons, lowerLines_cons, Line.renumber_tokens, hf, ih, adaptExcept_bind,
      adaptExcept_atLine]
    rfl
  | case5 line following x expr hf ih =>
    simp only [List.map_cons, lowerLines_cons, Line.renumber_tokens, hf, ih, adaptExcept_bind,
      adaptExcept_atLine]
    rfl
  | case6 line following c tokens hf ihb ihr =>
    simp only [List.map_cons, lowerLines_cons, Line.renumber_tokens, hf, adaptExcept_bind,
      adaptExcept_fresh]
    refine bind_congr fun id => bind_congr fun _ => ?_
    cases hg : group? tokens with
    | none => rfl
    | some p =>
      obtain ⟨cond, rest⟩ := p
      have hcut := cut_renumber f ⟨line.number, rest⟩ following
      simp only [Line.renumber] at hcut
      simp only [Line.renumber, adaptExcept_bind, adaptExcept_atLine]
      refine bind_congr fun _ => ?_
      rw [hcut]
      cases hb : Block.cut ⟨line.number, rest⟩ following with
      | error e => rfl
      | ok block =>
        have hbody := ihb cond rest hg block hb
        have hrest := ihr cond rest hg block hb
        simp only [Block.mapResult, Block.remaining_map, Block.body_map, ← Line.renumber_eq_map, hbody, hrest,
          adaptExcept_bind]
        rfl

theorem hoist_map_renumber (f : Nat → Nat) (d : Draft) (lines : List Line) :
    d.hoist (lines.map (Line.renumber f)) = d.hoist lines := by
  unfold Draft.hoist
  rw [List.flatMap_map]
  rfl

theorem lowerProgram_map_renumber (f : Nat → Nat) (lines : List Line) :
    lowerProgram (lines.map (Line.renumber f)) = (lowerProgram lines).mapError (SyntaxError.renumber f) := by
  unfold lowerProgram
  rw [hoist_map_renumber, lowerLines_map_renumber, EStateM.run_adaptExcept]
  cases (lowerLines lines).run (Draft.hoist {} lines) <;> rfl

/-! ## Blank lines in front -/

/-- The text of one line that is blank or holds only a comment. -/
def BlankText (text : String) : Prop := '\n' ∉ text.toList ∧ dropComment (lex text) = []

theorem splitLines_unlines {ls : List String} (h : ∀ text ∈ ls, '\n' ∉ text.toList) (cs : List Char) :
    splitLines ((unlines ls).toList ++ cs) = ls.map String.toList ++ splitLines cs := by
  induction ls with
  | nil => rfl
  | cons text ls ih =>
    obtain ⟨htext, hls⟩ := List.forall_mem_cons.mp h
    have hline := splitLines_append htext ((unlines ls).toList ++ cs)
    rw [ih hls] at hline
    simpa [unlines] using hline

theorem numberLines_append (n : Nat) (ls ms : List (List Token)) :
    numberLines n (ls ++ ms) = numberLines n ls ++ numberLines (n + ls.length) ms := by
  induction ls generalizing n with
  | nil => rfl
  | cons ts ls ih =>
    rw [List.cons_append, numberLines, numberLines, ih, List.length_cons, Nat.add_right_comm, Nat.add_assoc]
    rfl

theorem numberLines_add (n k : Nat) (ls : List (List Token)) :
    numberLines (n + k) ls = (numberLines n ls).map (Line.renumber (· + k)) := by
  induction ls generalizing n with
  | nil => rfl
  | cons ts ls ih =>
    rw [numberLines, numberLines, Nat.add_right_comm, ih]
    rfl

theorem readLines_unlines_append {front : List String} (h : ∀ text ∈ front, '\n' ∉ text.toList)
    (source : String) : readLines (unlines front ++ source) =
      numberLines 1 (front.map fun text => dropComment (lex text)) ++
        (readLines source).map (Line.renumber (· + front.length)) := by
  unfold readLines
  rw [String.toList_append, splitLines_unlines h, List.map_append, numberLines_append, List.map_map,
    ← numberLines_add]
  simp only [List.length_map]
  rfl

theorem lowerProgram_blank_append {front lines : List Line} (h : ∀ line ∈ front, line.tokens = []) :
    lowerProgram (front ++ lines) = lowerProgram lines := by
  have htokens : front.flatMap Line.tokens = [] := List.flatMap_eq_nil_iff.mpr h
  unfold lowerProgram Draft.hoist
  rw [lowerLines_blank_append h, List.flatMap_append, htokens, List.nil_append]

theorem lowerSource_blank_append {front : List String} (h : ∀ text ∈ front, BlankText text)
    (source : String) : lowerSource (unlines front ++ source) =
      (lowerSource source).mapError (SyntaxError.renumber (· + front.length)) := by
  have hblank : ∀ line ∈ numberLines 1 (front.map fun text => dropComment (lex text)), line.tokens = [] := by
    intro line hl
    have hmem := List.mem_map_of_mem (f := Line.tokens) hl
    rw [tokens_numberLines, List.mem_map] at hmem
    obtain ⟨text, ht, htokens⟩ := hmem
    rw [← htokens]
    exact (h text ht).2
  unfold lowerSource
  rw [readLines_unlines_append (fun text ht => (h text ht).1), lowerProgram_blank_append hblank,
    lowerProgram_map_renumber]

/-- The numbers of the lines make no difference but for the line that is blamed. Blank lines in front of
a source leave its listing as it is if it is accepted, and move the blame by as many lines if not. -/
theorem lowerLines_renumber :
    (∀ (f : Nat → Nat) (lines : List Line) (d : Draft),
      (lowerLines (lines.map (Line.renumber f))).run (d.hoist (lines.map (Line.renumber f))) =
        match (lowerLines lines).run (d.hoist lines) with
        | .ok _ d' => .ok () d'
        | .error e d' => .error ⟨f e.line, e.cause⟩ d') ∧
    ∀ (front : List String) (source : String), (∀ text ∈ front, BlankText text) →
      match (compile source).verdict with
      | .accepted => compile (unlines front ++ source) = compile source
      | .rejected n => compile (unlines front ++ source) =
          ⟨errorModule (n + front.length), .rejected (n + front.length)⟩ := by
  constructor
  · intro f lines d
    rw [hoist_map_renumber, lowerLines_map_renumber, EStateM.run_adaptExcept]
    cases (lowerLines lines).run (d.hoist lines) <;> rfl
  · intro front source h
    have hfront := lowerSource_blank_append h source
    unfold compile
    rw [hfront]
    cases lowerSource source with
    | ok code => rfl
    | error e => rfl

theorem lowerLines_renumber_unclosed :
    compile (unlines ["", " # none"] ++ "x = 1\nprint(x") =
      ⟨errorModule 4, .rejected 4⟩ := by
  have hblank : ∀ text ∈ ["", " # none"], BlankText text := by
    unfold BlankText
    decide +kernel
  have hsource : (compile "x = 1\nprint(x").verdict = .rejected 2 := by decide +kernel
  have h := lowerLines_renumber.2 ["", " # none"] "x = 1\nprint(x" hblank
  rw [hsource] at h
  exact h

end SlotCompiler
