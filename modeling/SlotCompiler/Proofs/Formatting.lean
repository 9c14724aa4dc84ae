import Mathlib.Logic.Relation
import SlotCompiler.Proofs.LineBreaks
import SlotCompiler.Proofs.Renumbering

/-!
# The layout of a source

A break next to a brace and the deletion of a blank line are edits of a source that its code does not
show. Each edit lays out the lines of an accepted source anew (`Edit.relaid`), so any number of them keep
the source accepted, with the same code: `lowerSource_of_edits`. Enough of them put each brace on a line
of its own and leave no blank line.
-/

namespace SlotCompiler

/-! ## Edits -/

/-- The text ends where a line may start. -/
def LineStart (text : List Char) : Prop := ∀ c ∈ text.getLast?, c = '\n'

/-- A line may be broken behind a brace, in front of a brace that closes a block, and in front of one
that opens a block and is not the first token of the line. -/
def Breakable (text back : List Char) : Prop :=
  (text.getLast? = some '{' ∨ text.getLast? = some '}') ∨
    back.head? = some '}' ∨ back.head? = some '{' ∧ lexChars text ≠ []

def readLine (text : List Char) : List Token := dropComment (lexChars text)

/-- One edit of a source: a line is broken in front of its comment, or a line without tokens goes. -/
inductive Edit : List Char → List Char → Prop
  | break {front text back eol : List Char} : LineStart front → '\n' ∉ text → '#' ∉ text →
    Breakable text back → eol ∈ [['\n'], ['\r', '\n']] →
    Edit (front ++ (text ++ back)) (front ++ (text ++ eol ++ back))
  | delete {front text back : List Char} : LineStart front → '\n' ∉ text → readLine text = [] →
    Edit (front ++ (text ++ '\n' :: back)) (front ++ back)
  | deleteLast {front text : List Char} : LineStart front → '\n' ∉ text → readLine text = [] →
    Edit (front ++ text) front

/-! ## Tokens next to a break -/

section
variable {text cs : List Char} {c : Char}

theorem lexWord_append_of_empty (h : (lexWord cs).1 = []) (text : List Char) :
    lexWord (text ++ cs) = ((lexWord text).1, (lexWord text).2 ++ (lexWord cs).2) := by
  induction text with
  | nil => exact Prod.ext h rfl
  | cons c text ih =>
    have hflush : ∀ word ts us, flush word (ts ++ us) = flush word ts ++ us := by
      intro word ts us
      cases word <;> rfl
    simp only [List.cons_append, lexWord, ih, hflush]
    split
    · rfl
    · split <;> rfl

theorem lexChars_append_of_empty (h : (lexWord cs).1 = []) (text : List Char) :
    lexChars (text ++ cs) = lexChars text ++ lexChars cs := by
  unfold lexChars
  rw [lexWord_append_of_empty h, h]
  cases (lexWord text).1 <;> rfl

theorem lexWord_mark (hp : isPunctuator c) (cs : List Char) :
    lexWord (c :: cs) = ([], String.singleton c :: lexChars cs) := by
  simp [lexWord, isBlank_of_isPunctuator hp, hp, lexChars]

theorem lexChars_mark (hp : isPunctuator c) (text cs : List Char) :
    lexChars (text ++ c :: cs) = lexChars text ++ String.singleton c :: lexChars cs := by
  have hcs := lexWord_mark hp cs
  have hmark : lexChars (c :: cs) = String.singleton c :: lexChars cs := by
    unfold lexChars
    rw [hcs]
    rfl
  rw [lexChars_append_of_empty (by rw [hcs]), hmark]

theorem lexChars_concat_append (hp : isPunctuator c) (text cs : List Char) :
    lexChars ((text ++ [c]) ++ cs) = lexChars (text ++ [c]) ++ lexChars cs := by
  rw [List.append_assoc, List.singleton_append, lexChars_mark hp, lexChars_mark hp, List.append_assoc]
  rfl

theorem flush_subset {word : List Char} {ts : List Token} (hw : word ⊆ cs)
    (hts : ∀ t ∈ ts, t.toList ⊆ cs) : ∀ t ∈ flush word ts, t.toList ⊆ cs := by
  cases word with
  | nil => exact hts
  | cons c word => exact List.forall_mem_cons.mpr ⟨by rwa [String.toList_ofList], hts⟩

theorem lexWord_subset (text : List Char) :
    (lexWord text).1 ⊆ text ∧ ∀ t ∈ (lexWord text).2, t.toList ⊆ text := by
  induction text with
  | nil => exact ⟨List.nil_subset _, List.forall_mem_nil _⟩
  | cons c text ih =>
    obtain ⟨hw, hts⟩ := ih
    have hmore : text ⊆ c :: text := List.subset_cons_self c text
    have hw := List.Subset.trans hw hmore
    have hts : ∀ t ∈ (lexWord text).2, t.toList ⊆ c :: text :=
      fun t ht => List.Subset.trans (hts t ht) hmore
    simp only [lexWord]
    split
    · exact ⟨List.nil_subset _, flush_subset hw hts⟩
    · split
      · exact ⟨List.nil_subset _, List.forall_mem_cons.mpr ⟨by simp, flush_subset hw hts⟩⟩
      · exact ⟨by simpa using hw, hts⟩

theorem lexChars_subset (text : List Char) : ∀ t ∈ lexChars text, t.toList ⊆ text :=
  flush_subset (lexWord_subset text).1 (lexWord_subset text).2

theorem singleton_not_mem_lexChars (h : c ∉ text) : String.singleton c ∉ lexChars text := by
  intro hm
  exact h (lexChars_subset text _ hm (by simp))

theorem dropComment_append {ts : List Token} (h : "#" ∉ ts) (us : List Token) :
    dropComment (ts ++ us) = ts ++ dropComment us := by
  refine List.takeWhile_append_of_pos fun t ht => ?_
  rw [decide_eq_true_eq]
  rintro rfl
  exact h ht

theorem readLine_append (h : '#' ∉ text) (hl : lexChars (text ++ cs) = lexChars text ++ lexChars cs) :
    readLine (text ++ cs) = lexChars text ++ readLine cs := by
  unfold readLine
  rw [hl, dropComment_append (singleton_not_mem_lexChars h)]

theorem readLine_eq_lexChars (h : '#' ∉ text) : readLine text = lexChars text := by
  have hl : lexChars (text ++ []) = lexChars text ++ lexChars [] := lexChars_append_of_empty rfl text
  simpa [readLine, lexChars, lexWord, flush, dropComment] using readLine_append h hl

theorem readLine_comment (h : '#' ∉ text) (cs : List Char) :
    readLine (text ++ '#' :: cs) = lexChars text := by
  have hp : isPunctuator '#' := by decide
  have hmark : lexChars (text ++ '#' :: cs) = lexChars text ++ "#" :: lexChars cs :=
    lexChars_mark hp text cs
  unfold readLine
  rw [hmark, dropComment_append (singleton_not_mem_lexChars h)]
  simp [dropComment]

theorem readLine_mark (hp : isPunctuator c) (hne : c ≠ '#') (h : '#' ∉ text) (cs : List Char) :
    readLine (text ++ c :: cs) = lexChars text ++ String.singleton c :: readLine cs := by
  have hc : '#' ∉ text ++ [c] := by simpa [h] using hne.symm
  rw [List.append_cons, readLine_append hc (lexChars_concat_append hp text cs), lexChars_mark hp,
    List.append_assoc]
  rfl

end

/-- The gap between the tokens is one in which a line may be broken. -/
structure BreakAt (us vs : List Token) : Prop where
  brace : AtBrace us vs
  inner : us = [] → vs.head? ≠ some openBrace

section
variable {text cs rest : List Char}

theorem Breakable.lexChars_append (h : Breakable text cs) :
    lexChars (text ++ cs) = lexChars text ++ lexChars cs := by
  have behind : ∀ {c}, isPunctuator c → text.getLast? = some c →
      lexChars (text ++ cs) = lexChars text ++ lexChars cs := by
    intro c hp hc
    obtain ⟨front, rfl⟩ := List.getLast?_eq_some_iff.mp hc
    exact lexChars_concat_append hp front cs
  have before : ∀ {c}, isPunctuator c → cs.head? = some c →
      lexChars (text ++ cs) = lexChars text ++ lexChars cs := by
    intro c hp hc
    obtain ⟨back, rfl⟩ := List.head?_eq_some_iff.mp hc
    exact lexChars_append_of_empty (by rw [lexWord_mark hp]) text
  rcases h with (h | h) | h | ⟨h, _⟩
  · exact behind (by decide) h
  · exact behind (by decide) h
  · exact before (by decide) h
  · exact before (by decide) h

theorem Breakable.breakAt (h : Breakable text cs) : BreakAt (lexChars text) (readLine cs) := by
  have hlast : ∀ {c}, isPunctuator c → text.getLast? = some c →
      (lexChars text).getLast? = some (String.singleton c) := by
    intro c hp hc
    obtain ⟨front, rfl⟩ := List.getLast?_eq_some_iff.mp hc
    rw [lexChars_mark hp]
    exact List.getLast?_concat
  have hhead : ∀ {c}, isPunctuator c → c ≠ '#' → cs.head? = some c →
      (readLine cs).head? = some (String.singleton c) := by
    intro c hp hne hc
    obtain ⟨back, rfl⟩ := List.head?_eq_some_iff.mp hc
    have hmark := readLine_mark hp hne List.not_mem_nil back
    rw [List.nil_append] at hmark
    rw [hmark]
    rfl
  have hnil : ∀ {c}, (lexChars text).getLast? = some c → lexChars text ≠ [] := by
    intro c hc hnil
    rw [hnil] at hc
    cases hc
  rcases h with (h | h) | h | ⟨h, hne⟩
  · have hl := hlast (by decide) h
    exact ⟨.inl (.inl hl), fun hn => absurd hn (hnil hl)⟩
  · have hl := hlast (by decide) h
    exact ⟨.inl (.inr hl), fun hn => absurd hn (hnil hl)⟩
  · have hh := hhead (by decide) (by decide) h
    exact ⟨.inr (.inr hh), fun _ => hh ▸ by decide⟩
  · exact ⟨.inr (.inl (hhead (by decide) (by decide) h)), fun hn => absurd hn hne⟩

theorem Breakable.of_line (h : Breakable text (cs ++ '\n' :: rest)) : Breakable text cs := by
  unfold Breakable at h ⊢
  cases cs with
  | nil => simpa using h
  | cons c cs => exact h

end

/-! ## Lines next to a break -/

def tokenLines (text : List Char) : List (List Token) := (splitLines text).map readLine

theorem readLines_eq (source : String) :
    readLines source = numberLines 1 (tokenLines source.toList) := rfl

section
variable {front text back : List Char}

theorem splitLines_ne_nil (h : text ≠ []) : splitLines text ≠ [] := by
  cases text with
  | nil => exact absurd rfl h
  | cons c text =>
    unfold splitLines
    split
    · simp
    · split <;> simp

theorem splitLines_append_of_lineStart (h : LineStart front) (back : List Char) :
    splitLines (front ++ back) = splitLines front ++ splitLines back := by
  induction front with
  | nil => rfl
  | cons c front ih =>
    by_cases hnil : front = []
    · subst hnil
      obtain rfl : c = '\n' := h c rfl
      simp [splitLines]
    · have hfront : LineStart front := by
        unfold LineStart at h ⊢
        rwa [List.getLast?_cons_of_ne_nil hnil] at h
      obtain ⟨line, lines, hlines⟩ := List.exists_cons_of_ne_nil (splitLines_ne_nil hnil)
      rw [List.cons_append, splitLines, splitLines, ih hfront, hlines]
      split <;> rfl

theorem splitLines_of_not_mem (h : '\n' ∉ text) (hne : text ≠ []) : splitLines text = [text] := by
  induction text with
  | nil => exact absurd rfl hne
  | cons c text ih =>
    rw [List.mem_cons, not_or] at h
    rw [splitLines, if_neg (Ne.symm h.1)]
    by_cases hnil : text = []
    · subst hnil
      rfl
    · rw [ih h.2 hnil]

theorem tokenLines_append (h : LineStart front) (back : List Char) :
    tokenLines (front ++ back) = tokenLines front ++ tokenLines back := by
  unfold tokenLines
  rw [splitLines_append_of_lineStart h, List.map_append]

theorem tokenLines_line (h : '\n' ∉ text) (back : List Char) :
    tokenLines (text ++ '\n' :: back) = readLine text :: tokenLines back := by
  unfold tokenLines
  rw [splitLines_append h, List.map_cons]

theorem tokenLines_last (h : '\n' ∉ text) (hne : text ≠ []) : tokenLines text = [readLine text] := by
  unfold tokenLines
  rw [splitLines_of_not_mem h hne]
  rfl

theorem tokenLines_eol {eol : List Char} (he : eol ∈ [['\n'], ['\r', '\n']]) (hn : '\n' ∉ text)
    (hc : '#' ∉ text) (back : List Char) :
    tokenLines (text ++ eol ++ back) = lexChars text :: tokenLines back := by
  rw [List.mem_cons, List.mem_singleton] at he
  rcases he with rfl | rfl
  · rw [List.append_assoc, List.singleton_append, tokenLines_line hn, readLine_eq_lexChars hc]
  · have hn : '\n' ∉ text ++ ['\r'] := by simp [hn]
    have hr : readLine (text ++ ['\r']) = lexChars text ++ readLine ['\r'] :=
      readLine_append hc (lexChars_append_of_empty rfl text)
    have hline : text ++ ['\r', '\n'] ++ back = (text ++ ['\r']) ++ '\n' :: back := by simp
    rw [hline, tokenLines_line hn, hr]
    exact congrArg (· :: tokenLines back) (List.append_nil _)

theorem exists_line (text : List Char) :
    ∃ line, '\n' ∉ line ∧ (text = line ∨ ∃ back, text = line ++ '\n' :: back) := by
  by_cases h : '\n' ∈ text
  · obtain ⟨line, back, rfl, hline⟩ := List.eq_append_cons_of_mem h
    exact ⟨line, hline, .inr ⟨back, rfl⟩⟩
  · exact ⟨text, h, .inl rfl⟩

/-- The line that is broken, `vs` being the tokens behind the break. -/
theorem tokenLines_break (h : Breakable text back) (hn : '\n' ∉ text) (hc : '#' ∉ text) :
    ∃ vs more, BreakAt (lexChars text) vs ∧ tokenLines (text ++ back) = (lexChars text ++ vs) :: more ∧
      (tokenLines back = vs :: more ∨ tokenLines back = [] ∧ vs = [] ∧ more = []) := by
  obtain ⟨line, hline, rfl | ⟨back, rfl⟩⟩ := exists_line back
  · refine ⟨readLine back, [], h.breakAt, ?_, ?_⟩
    · have hne : text ++ back ≠ [] := by
        intro hnil
        obtain ⟨rfl, rfl⟩ := List.append_eq_nil_iff.mp hnil
        simp [Breakable] at h
      have hmem : '\n' ∉ text ++ back := by simp [hn, hline]
      rw [tokenLines_last hmem hne, readLine_append hc h.lexChars_append]
    · by_cases hnil : back = []
      · subst hnil
        exact .inr ⟨rfl, rfl, rfl⟩
      · exact .inl (tokenLines_last hline hnil)
  · have h := h.of_line
    refine ⟨readLine line, tokenLines back, h.breakAt, ?_, .inl (tokenLines_line hline back)⟩
    have hmem : '\n' ∉ text ++ line := by simp [hn, hline]
    rw [← List.append_assoc, tokenLines_line hmem, readLine_append hc h.lexChars_append]

end

/-! ## Edits lay out lines anew -/

section
variable {ls ls' more : List (List Token)} {us vs : List Token}

theorem relaid_numberLines_append (h : ∀ m n, Relaid (numberLines m ls) (numberLines n ls'))
    (front : List (List Token)) (m n : Nat) :
    Relaid (numberLines m (front ++ ls)) (numberLines n (front ++ ls')) := by
  induction front generalizing m n with
  | nil => exact h m n
  | cons ts front ih => exact .keep (ih (m + 1) (n + 1))

theorem relaid_numberLines (ls : List (List Token)) (m n : Nat) :
    Relaid (numberLines m ls) (numberLines n ls) := by
  have hnil : ∀ m n, Relaid (numberLines m []) (numberLines n []) := fun _ _ => .nil
  simpa using relaid_numberLines_append hnil ls m n

theorem AtBrace.last (h : AtBrace us []) :
    us.getLast? = some openBrace ∨ us.getLast? = some closeBrace := by
  rcases h with h | h | h
  · exact h
  · cases h
  · cases h

theorem opens_numberLines (m n : Nat) (ls : List (List Token)) :
    Opens (numberLines m ls) ↔ Opens (numberLines n ls) := by
  cases ls <;> rfl

theorem BreakAt.relaid (h : BreakAt us vs)
    (ho : ∀ n, vs = [] → ¬Opens (numberLines n more)) (m n : Nat) :
    Relaid (numberLines m ((us ++ vs) :: more)) (numberLines n (us :: vs :: more)) := by
  by_cases hus : us = []
  · subst hus
    refine .blank ?_ (.keep (relaid_numberLines more _ _))
    rw [numberLines, opens_cons]
    exact h.inner rfl
  · by_cases hvs : vs = []
    · subst hvs
      rw [List.append_nil]
      exact .keep (.blank (ho _ rfl) (relaid_numberLines more _ _))
    · exact .break hus hvs h.brace (.keep (relaid_numberLines more _ _))

end

theorem Control.getLast?_header (c : Control) (cond : List Token) (before : List (Option Token)) :
    (before ++ (c.header cond).map some).getLast? = some (some ")") := by
  have hheader : before ++ (c.header cond).map some =
      (before ++ (c.keyword :: "(" :: cond).map some) ++ [some ")"] := by
    simp [header]
  rw [hheader]
  exact List.getLast?_concat

-- The condition of a header ends with a parenthesis, and at most the end of its line comes behind it.
theorem Delimited.not_opens {front more : List Line} {line : Line}
    (h : Delimited (front ++ line :: more))
    (hb : line.tokens.getLast? = some openBrace ∨ line.tokens.getLast? = some closeBrace) :
    ¬Opens more := by
  intro ho
  cases more with
  | nil => cases ho
  | cons next more =>
    obtain ⟨ts, hts⟩ := List.head?_eq_some_iff.mp (show next.tokens.head? = some openBrace from ho)
    have hstream : stream (front ++ line :: next :: more) =
        (stream front ++ line.tokens.map some ++ [none]) ++
          some openBrace :: (ts.map some ++ none :: stream more) := by
      simp [stream, hts]
    obtain ⟨before, c, cond, gap, _, hgap, heq⟩ := h.openers _ _ hstream
    rcases hgap with rfl | rfl
    · have hlast := congrArg List.getLast? heq
      rw [List.append_nil, c.getLast?_header, List.getLast?_concat] at hlast
      cases hlast
    · have hlast := congrArg List.getLast? (List.append_cancel_right heq)
      rw [c.getLast?_header, List.getLast?_append, List.getLast?_map] at hlast
      rcases hb with hb | hb
      · rw [hb, Option.map_some, Option.some_or] at hlast
        exact absurd hlast (by decide)
      · rw [hb, Option.map_some, Option.some_or] at hlast
        exact absurd hlast (by decide)

theorem Edit.relaid {cs cs' : List Char} (h : Edit cs cs')
    (hd : Delimited (numberLines 1 (tokenLines cs))) :
    Relaid (numberLines 1 (tokenLines cs)) (numberLines 1 (tokenLines cs')) := by
  cases h with
  | @«break» front text back eol hf hn hc hb heol =>
    obtain ⟨vs, more, hat, hold, hback⟩ := tokenLines_break hb hn hc
    rw [tokenLines_append hf, hold] at hd ⊢
    rw [tokenLines_append hf, tokenLines_eol heol hn hc]
    apply relaid_numberLines_append
    intro m n
    rcases hback with hback | ⟨hback, rfl, rfl⟩
    · rw [hback]
      refine hat.relaid (fun k hvs => ?_) m n
      subst hvs
      -- Behind a line that ends with a brace, an accepted source opens no block.
      rw [List.append_nil, numberLines_append] at hd
      rw [opens_numberLines k]
      exact hd.not_opens hat.brace.last
    · rw [hback, List.append_nil]
      exact relaid_numberLines _ m n
  | @delete front text back hf hn hblank =>
    rw [tokenLines_append hf, tokenLines_append hf, tokenLines_line hn, hblank]
    apply relaid_numberLines_append
    intro m n
    exact .drop (relaid_numberLines _ _ n)
  | @deleteLast _ text hf hn hblank =>
    by_cases hnil : text = []
    · subst hnil
      rw [List.append_nil]
      exact relaid_numberLines _ 1 1
    · have hlast : ∀ m n, Relaid (numberLines m [[]]) (numberLines n []) := fun _ _ => .drop .nil
      rw [tokenLines_append hf, tokenLines_last hn hnil, hblank]
      simpa using relaid_numberLines_append hlast (tokenLines cs') 1 1

/-! ## Tidy sources -/

/-- There are tokens on the line, and if one of them is a brace it is alone. -/
def Tidy (ts : List Token) : Prop :=
  ts ≠ [] ∧ (openBrace ∈ ts ∨ closeBrace ∈ ts → ts.length = 1)

section
variable {front text : List Char}

theorem tidy_lexChars (h : ∀ x ∈ text, x ≠ '{' ∧ x ≠ '}') (hne : lexChars text ≠ []) :
    Tidy (lexChars text) := by
  refine ⟨hne, fun hm => ?_⟩
  rcases hm with hm | hm
  · exact absurd hm (singleton_not_mem_lexChars fun hx => (h _ hx).1 rfl)
  · exact absurd hm (singleton_not_mem_lexChars fun hx => (h _ hx).2 rfl)

/-- A line has no token, or is tidy, or there is a first brace on it. -/
theorem readLine_cases (line : List Char) : readLine line = [] ∨ Tidy (readLine line) ∨
    ∃ text c back, line = text ++ c :: back ∧ (c = '{' ∨ c = '}') ∧ '#' ∉ text ∧
      ∀ x ∈ text, x ≠ '{' ∧ x ≠ '}' := by
  have plain : ∀ {text}, (∀ x ∈ text, x ≠ '{' ∧ x ≠ '}') → readLine line = lexChars text →
      readLine line = [] ∨ Tidy (readLine line) := by
    intro text ht heq
    rw [heq]
    by_cases hnil : lexChars text = []
    · exact .inl hnil
    · exact .inr (tidy_lexChars ht hnil)
  cases hfind : line.find? fun x => x = '#' ∨ x = '{' ∨ x = '}' with
  | none =>
    simp only [List.find?_eq_none, decide_eq_true_eq, not_or] at hfind
    have hc : '#' ∉ line := fun hm => (hfind _ hm).1 rfl
    exact (plain (fun x hx => (hfind x hx).2) (readLine_eq_lexChars hc)).imp_right .inl
  | some c =>
    obtain ⟨hmark, text, back, rfl, htext⟩ := List.find?_eq_some_iff_append.mp hfind
    simp only [decide_eq_true_eq] at hmark
    simp only [Bool.not_eq_true', decide_eq_false_iff_not, not_or] at htext
    have hc : '#' ∉ text := fun hm => (htext _ hm).1 rfl
    rcases hmark with rfl | hbrace
    · exact (plain (fun x hx => (htext x hx).2) (readLine_comment hc back)).imp_right .inl
    · exact .inr (.inr ⟨text, c, back, rfl, hbrace, hc, fun x hx => (htext x hx).2⟩)

theorem lineStart_nil : LineStart [] := by
  intro c hc
  cases hc

theorem lineStart_concat (text : List Char) : LineStart (text ++ ['\n']) := by
  intro c hc
  rw [List.getLast?_concat] at hc
  exact (Option.some.inj hc).symm

theorem tokenLines_extend {line : List Char} (hf : LineStart front) (hline : '\n' ∉ line) :
    LineStart (front ++ (line ++ ['\n'])) ∧
      tokenLines (front ++ (line ++ ['\n'])) = tokenLines front ++ [readLine line] := by
  constructor
  · rw [← List.append_assoc]
    exact lineStart_concat _
  · rw [tokenLines_append hf, tokenLines_line hline]
    rfl

theorem exists_break {before : List Char} {c : Char} (hf : LineStart front) (hn : '\n' ∉ before)
    (hc : '#' ∉ before) (hbefore : ∀ x ∈ before, x ≠ '{' ∧ x ≠ '}') (hbrace : c = '{' ∨ c = '}')
    (back : List Char) : ∃ line rest, rest.length < (before ++ c :: back).length ∧ '\n' ∉ line ∧
      Tidy (readLine line) ∧ Edit (front ++ (before ++ c :: back)) (front ++ (line ++ ['\n'] ++ rest)) := by
  by_cases hnil : lexChars before = []
  · -- The brace starts its line, so that the break comes behind it.
    have hp : isPunctuator c ∧ c ≠ '#' ∧ c ≠ '\n' := by rcases hbrace with rfl | rfl <;> decide
    have hn : '\n' ∉ before ++ [c] := by simpa [hn] using hp.2.2.symm
    have hc : '#' ∉ before ++ [c] := by simpa [hc] using hp.2.1.symm
    have hat : Breakable (before ++ [c]) back := by
      refine .inl ?_
      rw [List.getLast?_concat]
      exact hbrace.imp (congrArg some) (congrArg some)
    have htidy : Tidy (readLine (before ++ [c])) := by
      rw [readLine_eq_lexChars hc, lexChars_mark hp.1, hnil]
      exact ⟨List.cons_ne_nil _ _, fun _ => rfl⟩
    have hlt : back.length < (before ++ c :: back).length := by
      rw [List.length_append, List.length_cons]
      omega
    refine ⟨before ++ [c], back, hlt, hn, htidy, ?_⟩
    rw [List.append_cons]
    exact .break hf hn hc hat (by simp)
  · have hne : before ≠ [] := by
      rintro rfl
      exact hnil rfl
    have hat : Breakable before (c :: back) := by
      rcases hbrace with rfl | rfl
      · exact .inr (.inr ⟨rfl, hnil⟩)
      · exact .inr (.inl rfl)
    have htidy : Tidy (readLine before) := by
      rw [readLine_eq_lexChars hc]
      exact tidy_lexChars hbefore hnil
    have hlt : (c :: back).length < (before ++ c :: back).length := by
      have hpos := List.length_pos_iff.mpr hne
      rw [List.length_append]
      omega
    exact ⟨before, c :: back, hlt, hn, htidy, .break hf hn hc hat (by simp)⟩

/-- The text can be made tidy by edits if what stands in front of it is tidy. -/
theorem exists_tidy (hf : LineStart front) (ht : ∀ ts ∈ tokenLines front, Tidy ts) (text : List Char) :
    ∃ cs, Relation.ReflTransGen Edit (front ++ text) cs ∧ ∀ ts ∈ tokenLines cs, Tidy ts := by
  induction hlen : text.length using Nat.strong_induction_on generalizing front text with
  | _ n ih =>
  -- A tidy line at the front is left as it is, and goes to what stands in front of the text.
  have step : ∀ line back : List Char, back.length < n → '\n' ∉ line → Tidy (readLine line) →
      ∃ cs, Relation.ReflTransGen Edit (front ++ (line ++ ['\n'] ++ back)) cs ∧
        ∀ ts ∈ tokenLines cs, Tidy ts := by
    intro line back hlt hline htidy
    obtain ⟨hstart, htokens⟩ := tokenLines_extend hf hline
    rw [← List.append_assoc]
    refine ih _ hlt hstart ?_ _ rfl
    rw [htokens]
    exact List.forall_mem_append.mpr ⟨ht, List.forall_mem_singleton.mpr htidy⟩
  obtain ⟨line, hline, hback⟩ := exists_line text
  rcases readLine_cases line with hblank | htidy | ⟨before, c, after, rfl, hbrace, hc, hbefore⟩
  · rcases hback with rfl | ⟨back, rfl⟩
    · exact ⟨front, .single (.deleteLast hf hline hblank), ht⟩
    · obtain ⟨cs, hcs, htidy⟩ := ih back.length (by simp at hlen; omega) hf ht back rfl
      exact ⟨cs, .head (.delete hf hline hblank) hcs, htidy⟩
  · rcases hback with rfl | ⟨back, rfl⟩
    · have hne : text ≠ [] := by
        rintro rfl
        exact htidy.1 rfl
      refine ⟨front ++ text, .refl, ?_⟩
      rw [tokenLines_append hf, tokenLines_last hline hne]
      exact List.forall_mem_append.mpr ⟨ht, List.forall_mem_singleton.mpr htidy⟩
    · have hgo := step line back (by simp at hlen; omega) hline htidy
      rwa [List.append_assoc] at hgo
  · obtain ⟨back, rfl⟩ : ∃ back, text = before ++ c :: back := by
      rcases hback with rfl | ⟨back, rfl⟩
      · exact ⟨after, rfl⟩
      · exact ⟨after ++ '\n' :: back, by simp⟩
    have hn : '\n' ∉ before := fun hm => hline (List.mem_append_left _ hm)
    obtain ⟨line, rest, hlt, hline, htidy, hedit⟩ := exists_break hf hn hc hbefore hbrace back
    obtain ⟨cs, hcs, hall⟩ := step line rest (hlen ▸ hlt) hline htidy
    exact ⟨cs, .head hedit hcs, hall⟩

end

/-! ## Accepted sources -/

section
variable {source : String} {code : List Instr}

theorem delimited_of_lowerSource (h : lowerSource source = .ok code) : Delimited (readLines source) := by
  obtain ⟨d, d', hd⟩ : ∃ d d', (lowerLines (readLines source)).run d = .ok () d' := by
    apply lowerLines_of_compile
    unfold compile
    rw [h]
  exact (structured_of_lowerLines hd).delimited

theorem lowerSource_of_edit {cs cs' : List Char} (he : Edit cs cs')
    (h : lowerSource (String.ofList cs) = .ok code) : lowerSource (String.ofList cs') = .ok code := by
  have hd := delimited_of_lowerSource h
  rw [readLines_eq, String.toList_ofList] at hd
  unfold lowerSource at h ⊢
  rw [readLines_eq, String.toList_ofList] at h ⊢
  exact lowerProgram_of_relaid (he.relaid hd) h

/-- Line breaks next to braces, in any number, and the deletion of blank lines keep an accepted source
accepted, with the same code. So they lead to a version of it with the same code in which each brace has
a line of its own and no line is blank. -/
theorem lowerSource_of_edits (h : lowerSource source = .ok code) :
    (∀ source' : String, Relation.ReflTransGen Edit source.toList source'.toList →
      lowerSource source' = .ok code) ∧
    ∃ source' : String, Relation.ReflTransGen Edit source.toList source'.toList ∧
      (∀ line ∈ readLines source', Tidy line.tokens) ∧ lowerSource source' = .ok code := by
  have hall : ∀ {cs}, Relation.ReflTransGen Edit source.toList cs →
      lowerSource (String.ofList cs) = .ok code := by
    intro cs hcs
    induction hcs with
    | refl => rwa [String.ofList_toList]
    | tail _ he ih => exact lowerSource_of_edit he ih
  constructor
  · intro source' hs
    have hcode := hall hs
    rwa [String.ofList_toList] at hcode
  · obtain ⟨cs, hcs, htidy⟩ := exists_tidy lineStart_nil (List.forall_mem_nil _) source.toList
    refine ⟨String.ofList cs, by rwa [String.toList_ofList], ?_, hall hcs⟩
    intro line hl
    apply htidy
    have hmem := List.mem_map_of_mem (f := Line.tokens) hl
    rwa [readLines_eq, tokens_numberLines, String.toList_ofList] at hmem

end

theorem lowerSource_of_edits_branch : ∃ code,
    lowerSource "if (1) \x7bx = 2\x7d\n\nprint(x)" = .ok code ∧
      lowerSource "if (1) \n\x7bx = 2\x7d\nprint(x)" = .ok code := by
  obtain ⟨code, h⟩ : ∃ code, lowerSource "if (1) \x7bx = 2\x7d\n\nprint(x)" = .ok code := ⟨_, by cbv⟩
  have hat : Breakable "if (1) ".toList "\x7bx = 2\x7d\n\nprint(x)".toList :=
    .inr (.inr ⟨rfl, by decide +kernel⟩)
  have hbreak : Edit "if (1) \x7bx = 2\x7d\n\nprint(x)".toList "if (1) \n\x7bx = 2\x7d\n\nprint(x)".toList :=
    @Edit.break [] "if (1) ".toList _ ['\n'] lineStart_nil (by decide) (by decide) hat (by decide)
  have hstart := lineStart_concat "if (1) \n\x7bx = 2\x7d".toList
  have hdelete : Edit "if (1) \n\x7bx = 2\x7d\n\nprint(x)".toList "if (1) \n\x7bx = 2\x7d\nprint(x)".toList :=
    @Edit.delete _ [] "print(x)".toList hstart List.not_mem_nil rfl
  refine ⟨code, h, (lowerSource_of_edits h).1 _ ?_⟩
  exact .tail (.single hbreak) hdelete

end SlotCompiler
