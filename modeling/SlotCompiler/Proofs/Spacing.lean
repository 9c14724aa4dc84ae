import SlotCompiler.Proofs.Formatting

/-!
# Blanks, comments and line endings

A source is a list of rows: the text of a line and the line ending behind it. Blanks count only where
they keep two words apart, a comment counts for nothing, and neither does the kind of a line ending.
`compile_of_edits`: rows that differ in these have the same listing.
-/

namespace SlotCompiler

/-! ## Rows -/

structure Row where
  text : List Char
  crlf : Bool -- whether a carriage return stands in front of the line feed
  noFeed : '\n' ∉ text

def Row.eol (r : Row) : List Char := if r.crlf then ['\r', '\n'] else ['\n']

def sourceOf (rows : List Row) : String := String.ofList (rows.flatMap fun r => r.text ++ r.eol)

def Blanks (w : List Char) : Prop := ∀ c ∈ w, isBlank c

/-- The second text is the first one with other blanks between two words, with more blanks at an end
or next to a punctuator, or with a comment behind it. -/
inductive Respaced : List Char → List Char → Prop
  | between {a b v w : List Char} : Blanks v → Blanks w → v ≠ [] → w ≠ [] →
    Respaced (a ++ (v ++ b)) (a ++ (w ++ b))
  | front {text w : List Char} : Blanks w → Respaced text (w ++ text)
  | back {text w : List Char} : Blanks w → Respaced text (text ++ w)
  | before {a b w : List Char} {c : Char} : isPunctuator c → Blanks w →
    Respaced (a ++ c :: b) (a ++ (w ++ c :: b))
  | behind {a b w : List Char} {c : Char} : isPunctuator c → Blanks w →
    Respaced (a ++ c :: b) (a ++ c :: (w ++ b))
  | comment {text cs : List Char} : Respaced text (text ++ '#' :: cs)

inductive Row.Edit : Row → Row → Prop
  | ending {r r' : Row} : r'.text = r.text → Edit r r'
  | text {r r' : Row} : r'.crlf = r.crlf → Respaced r.text r'.text → Edit r r'

/-! ## Tokens -/

section
variable {w : List Char}

theorem blanks_singleton {c : Char} (h : isBlank c) : Blanks [c] := List.forall_mem_singleton.mpr h

theorem lexChars_blanks (hw : Blanks w) (cs : List Char) : lexChars (w ++ cs) = lexChars cs := by
  induction w with
  | nil => rfl
  | cons c w ih =>
    obtain ⟨hc, hw⟩ := List.forall_mem_cons.mp hw
    have hstep : lexChars (c :: (w ++ cs)) = lexChars (w ++ cs) := by
      simp [lexChars, lexWord, hc, flush]
    rw [List.cons_append, hstep, ih hw]

theorem lexChars_gap (hw : Blanks w) (hne : w ≠ []) (a b : List Char) :
    lexChars (a ++ (w ++ b)) = lexChars a ++ lexChars b := by
  have hempty : (lexWord (w ++ b)).1 = [] := by
    obtain ⟨c, w, rfl⟩ := List.exists_cons_of_ne_nil hne
    simp [lexWord, hw c (.head _)]
  rw [lexChars_append_of_empty hempty, lexChars_blanks hw]

theorem lexChars_back (hw : Blanks w) (text : List Char) : lexChars (text ++ w) = lexChars text := by
  by_cases hne : w = []
  · rw [hne, List.append_nil]
  · have hgap := lexChars_gap hw hne text []
    rw [List.append_nil] at hgap
    exact hgap.trans (List.append_nil _)

theorem lexChars_before {c : Char} (hp : isPunctuator c) (hw : Blanks w) (a b : List Char) :
    lexChars (a ++ (w ++ c :: b)) = lexChars (a ++ c :: b) := by
  by_cases hne : w = []
  · rw [hne, List.nil_append]
  · rw [lexChars_gap hw hne, lexChars_append_of_empty (by rw [lexWord_mark hp])]

theorem lexChars_behind {c : Char} (hp : isPunctuator c) (hw : Blanks w) (a b : List Char) :
    lexChars (a ++ c :: (w ++ b)) = lexChars (a ++ c :: b) := by
  rw [lexChars_mark hp, lexChars_mark hp, lexChars_blanks hw]

theorem dropComment_comment (ts us : List Token) : dropComment (ts ++ "#" :: us) = dropComment ts := by
  unfold dropComment
  induction ts with
  | nil => simp
  | cons t ts ih =>
    by_cases ht : t = "#"
    · simp [ht]
    · simpa [ht] using ih

end

theorem Respaced.readLine_eq {text text' : List Char} (h : Respaced text text') :
    readLine text = readLine text' := by
  unfold readLine
  cases h with
  | between hv hw hvne hwne => rw [lexChars_gap hv hvne, lexChars_gap hw hwne]
  | front hw => rw [lexChars_blanks hw]
  | back hw => rw [lexChars_back hw]
  | before hp hw => rw [lexChars_before hp hw]
  | behind hp hw => rw [lexChars_behind hp hw]
  | @comment _ cs =>
    have hmark : lexChars (text ++ '#' :: cs) = lexChars text ++ "#" :: lexChars cs :=
      lexChars_mark (by decide) text cs
    rw [hmark, dropComment_comment]

/-! ## Sources -/

/-- The tokens of a row do not depend on its line ending. -/
theorem tokenLines_row (r : Row) (back : List Char) :
    tokenLines (r.text ++ r.eol ++ back) = readLine r.text :: tokenLines back := by
  have hreturn : Blanks ['\r'] := blanks_singleton (by decide)
  unfold Row.eol
  split
  · have hn : '\n' ∉ r.text ++ ['\r'] := by simp [r.noFeed]
    have hline := tokenLines_line hn back
    rw [← (Respaced.back hreturn).readLine_eq] at hline
    simpa using hline
  · simpa using tokenLines_line r.noFeed back

theorem tokenLines_sourceOf (rows : List Row) :
    tokenLines (sourceOf rows).toList = rows.map fun r => readLine r.text := by
  rw [sourceOf, String.toList_ofList]
  induction rows with
  | nil => rfl
  | cons r rows ih => rw [List.flatMap_cons, tokenLines_row, ih, List.map_cons]

theorem Row.Edit.readLine_eq {r r' : Row} (h : Relation.EqvGen Row.Edit r r') :
    readLine r.text = readLine r'.text := by
  induction h with
  | rel r r' h =>
    cases h with
    | ending h => rw [h]
    | text _ h => exact h.readLine_eq
  | refl r => rfl
  | symm r r' _ ih => exact ih.symm
  | trans r r' r'' _ _ ih ih' => exact ih.trans ih'

/-- Any number of edits on every row, made or taken back, leave the listing as it is. -/
theorem compile_of_edits {rows rows' : List Row}
    (h : List.Forall₂ (Relation.EqvGen Row.Edit) rows rows') :
    compile (sourceOf rows) = compile (sourceOf rows') := by
  have htokens : rows.map (fun r => readLine r.text) = rows'.map fun r => readLine r.text := by
    induction h with
    | nil => rfl
    | cons hr _ ih => rw [List.map_cons, List.map_cons, Row.Edit.readLine_eq hr, ih]
  have hlines : readLines (sourceOf rows) = readLines (sourceOf rows') := by
    rw [readLines_eq, readLines_eq, tokenLines_sourceOf, tokenLines_sourceOf, htokens]
  unfold compile lowerSource
  rw [hlines]

theorem compile_of_edits_comment : compile "x=1\n" = compile "x =\t1#!\r\n" := by
  have h₁ : Row.Edit ⟨"x=1".toList, false, by decide⟩ ⟨"x =1".toList, false, by decide⟩ :=
    .text rfl (@Respaced.before ['x'] ['1'] [' '] '=' (by decide) (blanks_singleton (by decide)))
  have h₂ : Row.Edit ⟨"x =1".toList, false, by decide⟩ ⟨"x =\t1".toList, false, by decide⟩ :=
    .text rfl (@Respaced.behind ['x', ' '] ['1'] ['\t'] '=' (by decide) (blanks_singleton (by decide)))
  have h₃ : Row.Edit ⟨"x =\t1".toList, false, by decide⟩ ⟨"x =\t1#!".toList, false, by decide⟩ :=
    .text rfl .comment
  have h₄ : Row.Edit ⟨"x =\t1#!".toList, false, by decide⟩ ⟨"x =\t1#!".toList, true, by decide⟩ :=
    .ending rfl
  have h := (((Relation.EqvGen.rel _ _ h₁).trans _ _ _ (.rel _ _ h₂)).trans _ _ _ (.rel _ _ h₃)).trans
    _ _ _ (.rel _ _ h₄)
  have hold : sourceOf [⟨"x=1".toList, false, by decide⟩] = "x=1\n" := by decide +kernel
  have hnew : sourceOf [⟨"x =\t1#!".toList, true, by decide⟩] = "x =\t1#!\r\n" := by decide +kernel
  rw [← hold, ← hnew]
  exact compile_of_edits (.cons h .nil)

end SlotCompiler
