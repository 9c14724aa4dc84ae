import SlotCompiler.Proofs.Spacing

/-!
# What tokens a text has

The tokens of a text are its punctuators and its words, each as it stands in the text, and only blanks
stand between them; two words in a row have a blank between them. `lex_eq_iff`: `lex` gives these
tokens, and no other list of tokens fits the text. Tokens written with blanks between them are read
back.
-/

namespace SlotCompiler

namespace Token

def IsWord (t : Token) : Prop :=
  t ≠ "" ∧ ∀ c ∈ t.toList, isBlank c = false ∧ isPunctuator c = false

def IsMark (t : Token) : Prop := ∃ c, t.toList = [c] ∧ isPunctuator c

end Token

structure Piece where
  gap : List Char
  token : Token

def weave (pieces : List Piece) (rest : List Char) : List Char :=
  pieces.flatMap (fun p => p.gap ++ p.token.toList) ++ rest

/-- Only blanks stand around the tokens, and some stand between two words in a row. -/
structure Apart (pieces : List Piece) (rest : List Char) : Prop where
  gaps : ∀ p ∈ pieces, Blanks p.gap
  rest : Blanks rest
  words : pieces.IsChain fun p q => p.token.IsWord → q.token.IsWord → q.gap ≠ []

/-- The tokens make up the text less its blanks, each is a punctuator or a word, and two words in a
row are apart in the text. -/
structure Lexed (text : List Char) (ts : List Token) : Prop where
  join : (String.join ts).toList = text.filter fun c => !isBlank c
  kinds : ∀ t ∈ ts, t.IsMark ∨ t.IsWord
  apart : ∃ pieces rest, text = weave pieces rest ∧ ts = pieces.map Piece.token ∧ Apart pieces rest

section
variable {t : Token} {ts : List Token} {cs rest : List Char} {p : Piece} {pieces : List Piece}

theorem weave_cons (p : Piece) (pieces : List Piece) (rest : List Char) :
    weave (p :: pieces) rest = p.gap ++ (p.token.toList ++ weave pieces rest) := by
  simp [weave]

theorem Token.IsMark.not_isWord (h : t.IsMark) : ¬t.IsWord := by
  obtain ⟨c, ht, hc⟩ := h
  intro hw
  have := (hw.2 c (by simp [ht])).2
  rw [hc] at this
  cases this

/-! ## The tokens of pieces -/

theorem Blanks.lexWord_eq_nil (h : Blanks cs) : (lexWord cs).1 = [] := by
  cases cs with
  | nil => rfl
  | cons c cs => simp [lexWord, h c (.head _)]

theorem Token.IsMark.eq_singleton (h : t.IsMark) : ∃ c, t = String.singleton c ∧ isPunctuator c := by
  obtain ⟨c, ht, hc⟩ := h
  exact ⟨c, String.toList_inj.mp (by rw [ht, String.toList_singleton]), hc⟩

theorem Token.IsMark.lexChars_append (h : t.IsMark) (cs : List Char) :
    lexChars (t.toList ++ cs) = t :: lexChars cs := by
  obtain ⟨c, rfl, hc⟩ := h.eq_singleton
  rw [String.toList_singleton]
  exact lexChars_mark hc [] cs

theorem Token.IsWord.lexChars_append (h : t.IsWord) (hcs : (lexWord cs).1 = []) :
    lexChars (t.toList ++ cs) = t :: lexChars cs :=
  Token.Atomic.lexChars_append (.word (by simpa using h.1) h.2) hcs

theorem Apart.lexWord_eq_nil (h : Apart (p :: pieces) rest) (hw : p.token.IsWord)
    (hk : ∀ q ∈ pieces, q.token.IsMark ∨ q.token.IsWord) : (lexWord (weave pieces rest)).1 = [] := by
  cases pieces with
  | nil => exact h.rest.lexWord_eq_nil
  | cons q pieces =>
    rw [weave_cons]
    obtain ⟨hgap, _⟩ := List.isChain_cons_cons.mp h.words
    cases hg : q.gap with
    | cons c gap =>
      have hc : isBlank c := h.gaps q (by simp) c (by simp [hg])
      simp [lexWord, hc]
    | nil =>
      rcases hk q (.head _) with hm | hq
      · obtain ⟨c, ht, hc⟩ := hm
        rw [ht]
        exact congrArg Prod.fst (lexWord_mark hc _)
      · exact absurd hg (hgap hw hq)

theorem Apart.tail (h : Apart (p :: pieces) rest) : Apart pieces rest :=
  ⟨fun q hq => h.gaps q (.tail _ hq), h.rest, h.words.tail⟩

theorem lexChars_weave (h : Apart pieces rest) (hk : ∀ p ∈ pieces, p.token.IsMark ∨ p.token.IsWord) :
    lexChars (weave pieces rest) = pieces.map Piece.token := by
  induction pieces with
  | nil => exact (lexChars_back h.rest []).trans rfl
  | cons p pieces ih =>
    obtain ⟨hp, hk⟩ := List.forall_mem_cons.mp hk
    rw [weave_cons, lexChars_blanks (h.gaps p (.head _))]
    rcases hp with hm | hw
    · rw [hm.lexChars_append, ih h.tail hk]
      rfl
    · rw [hw.lexChars_append (h.lexWord_eq_nil hw hk), ih h.tail hk]
      rfl

/-! ## The pieces of a text -/

/-- A word that has been read, and the pieces behind it. A word among these has blanks before it, or it
would go on with the word that has been read. -/
structure Reading (word : List Char) (ts : List Token) (cs : List Char) (pieces : List Piece)
    (rest : List Char) : Prop where
  text : cs = word ++ weave pieces rest
  tokens : pieces.map Piece.token = ts
  apart : Apart pieces rest
  first : ∀ p ∈ pieces.head?, p.token.IsWord → p.gap ≠ []

variable {word : List Char}

theorem Reading.flush (h : Reading word ts cs pieces rest) {gap : List Char} (hg : Blanks gap) :
    ∃ pieces rest, gap ++ cs = weave pieces rest ∧ pieces.map Piece.token = SlotCompiler.flush word ts ∧
      Apart pieces rest ∧ (gap ≠ [] → ∀ p ∈ pieces.head?, p.gap ≠ []) := by
  cases word with
  | cons c word =>
    refine ⟨⟨gap, String.ofList (c :: word)⟩ :: pieces, rest, ?_, ?_, ⟨?_, h.apart.rest, ?_⟩, by simp⟩
    · rw [weave_cons, String.toList_ofList, h.text]
    · rw [List.map_cons, h.tokens, SlotCompiler.flush]
    · exact List.forall_mem_cons.mpr ⟨hg, h.apart.gaps⟩
    · exact List.IsChain.cons h.apart.words fun q hq _ => h.first q hq
  | nil =>
    have htext : cs = weave pieces rest := h.text
    cases pieces with
    | nil =>
      refine ⟨[], gap ++ rest, by rw [htext]; rfl, h.tokens, ⟨by simp, ?_, .nil⟩, by simp⟩
      exact List.forall_mem_append.mpr ⟨hg, h.apart.rest⟩
    | cons p pieces =>
      obtain ⟨hp, hgaps⟩ := List.forall_mem_cons.mp h.apart.gaps
      refine ⟨⟨gap ++ p.gap, p.token⟩ :: pieces, rest, ?_, h.tokens, ⟨?_, h.apart.rest, ?_⟩, ?_⟩
      · rw [htext, weave_cons, weave_cons, List.append_assoc]
      · exact List.forall_mem_cons.mpr ⟨List.forall_mem_append.mpr ⟨hg, hp⟩, hgaps⟩
      · refine h.apart.words.imp_head fun hq => ?_
        exact hq
      · intro hne q hq
        cases hq
        simp [hne]

theorem exists_reading (cs : List Char) :
    ∃ pieces rest, Reading (lexWord cs).1 (lexWord cs).2 cs pieces rest := by
  induction cs with
  | nil => exact ⟨[], [], rfl, rfl, ⟨by simp, by simp [Blanks], .nil⟩, by simp⟩
  | cons c cs ih =>
    obtain ⟨pieces, rest, h⟩ := ih
    simp only [lexWord]
    split
    · rename_i hb
      obtain ⟨pieces, rest, htext, htokens, hapart, hfirst⟩ := h.flush (blanks_singleton hb)
      exact ⟨pieces, rest, htext, htokens, hapart, fun p hp _ => hfirst (by simp) p hp⟩
    split
    · rename_i hp
      have hmark : Token.IsMark (String.singleton c) := ⟨c, String.toList_singleton c, hp⟩
      have hnone : Blanks [] := by simp [Blanks]
      obtain ⟨pieces, rest, htext, htokens, hapart, _⟩ := h.flush hnone
      refine ⟨⟨[], String.singleton c⟩ :: pieces, rest, ?_, ?_, ⟨?_, hapart.rest, ?_⟩, ?_⟩
      · rw [weave_cons, String.toList_singleton, ← htext]
        rfl
      · rw [List.map_cons, htokens]
      · exact List.forall_mem_cons.mpr ⟨hnone, hapart.gaps⟩
      · exact List.IsChain.cons hapart.words fun q _ hw => absurd hw hmark.not_isWord
      · intro q hq hw
        cases hq
        exact absurd hw hmark.not_isWord
    · exact ⟨pieces, rest, congrArg (c :: ·) h.text, h.tokens, h.apart, h.first⟩

theorem exists_pieces (text : List Char) :
    ∃ pieces rest, text = weave pieces rest ∧ lexChars text = pieces.map Piece.token ∧ Apart pieces rest := by
  obtain ⟨pieces, rest, h⟩ := exists_reading text
  have hnone : Blanks [] := by simp [Blanks]
  obtain ⟨pieces, rest, htext, htokens, hapart, _⟩ := h.flush hnone
  exact ⟨pieces, rest, htext, htokens.symm, hapart⟩

/-! ## All tokens of a text -/

theorem kind_of_mem_lexChars (text : List Char) : ∀ t ∈ lexChars text, t.IsMark ∨ t.IsWord := by
  intro t ht
  rcases atomic_of_mem_lexChars t ht with h | rfl
  · cases h with
    | word hne hw => exact .inr ⟨by simpa using hne, hw⟩
    | mark ht hp _ => exact .inl ⟨_, ht, hp⟩
  · exact .inl ⟨'#', rfl, by decide⟩

theorem Token.not_isBlank (h : t.IsMark ∨ t.IsWord) : ∀ c ∈ t.toList, isBlank c = false := by
  rcases h with ⟨c, ht, hc⟩ | hw
  · rw [ht]
    exact List.forall_mem_singleton.mpr (isBlank_of_isPunctuator hc)
  · exact fun c hc => (hw.2 c hc).1

theorem Blanks.filter_eq_nil (h : Blanks cs) : cs.filter (fun c => !isBlank c) = [] :=
  List.filter_eq_nil_iff.mpr fun c hc => by simp [h c hc]

theorem filter_weave (h : Apart pieces rest) (hk : ∀ p ∈ pieces, p.token.IsMark ∨ p.token.IsWord) :
    (weave pieces rest).filter (fun c => !isBlank c) = pieces.flatMap fun p => p.token.toList := by
  induction pieces with
  | nil => exact h.rest.filter_eq_nil
  | cons p pieces ih =>
    obtain ⟨hp, hk⟩ := List.forall_mem_cons.mp hk
    have htoken : p.token.toList.filter (fun c => !isBlank c) = p.token.toList :=
      List.filter_eq_self.mpr fun c hc => by simp [Token.not_isBlank hp c hc]
    rw [weave_cons, List.filter_append, List.filter_append, (h.gaps p (.head _)).filter_eq_nil, htoken,
      ih h.tail hk, List.flatMap_cons]
    rfl

theorem lexed_of_pieces (h : Apart pieces rest) (hk : ∀ p ∈ pieces, p.token.IsMark ∨ p.token.IsWord) :
    Lexed (weave pieces rest) (pieces.map Piece.token) where
  join := by rw [filter_weave h hk, String.toList_join, List.flatMap_map]
  kinds := List.forall_mem_map.mpr hk
  apart := ⟨pieces, rest, rfl, rfl, h⟩

theorem lexed_iff {text : List Char} : Lexed text ts ↔ lexChars text = ts := by
  constructor
  · rintro ⟨_, hk, pieces, rest, rfl, rfl, h⟩
    exact lexChars_weave h (List.forall_mem_map.mp hk)
  · rintro rfl
    obtain ⟨pieces, rest, htext, htokens, h⟩ := exists_pieces text
    have hk := kind_of_mem_lexChars text
    rw [htokens] at hk ⊢
    rw [htext]
    exact lexed_of_pieces h (List.forall_mem_map.mp hk)

end

/-! ## Tokens written apart -/

def spaced (gap : Nat → String) : List Token → String
  | [] => ""
  | [t] => t
  | t :: u :: ts => t ++ (gap 0 ++ spaced (fun n => gap (n + 1)) (u :: ts))

theorem lex_spaced {gap : Nat → String} {ts : List Token} (hg : ∀ n, gap n ≠ "" ∧ Blanks (gap n).toList)
    (hk : ∀ t ∈ ts, t.IsMark ∨ t.IsWord) : lex (spaced gap ts) = ts := by
  have hsingle {t : Token} (h : t.IsMark ∨ t.IsWord) : lexChars t.toList = [t] := by
    rw [← List.append_nil t.toList]
    rcases h with hm | hw
    · exact hm.lexChars_append []
    · exact hw.lexChars_append rfl
  fun_induction spaced gap ts with
  | case1 => rfl
  | case2 gap t => exact hsingle (hk t (.head _))
  | case3 gap t u ts ih =>
    obtain ⟨ht, hk⟩ := List.forall_mem_cons.mp hk
    have hrest := ih (fun n => hg (n + 1)) hk
    rw [lex] at hrest ⊢
    rw [String.toList_append, String.toList_append, lexChars_gap (hg 0).2 (by simpa using (hg 0).1),
      hsingle ht, hrest]
    rfl

/-- `lex` gives the tokens of a text and no others, and reads tokens back that are written with blanks
between them. -/
theorem lex_eq_iff (text : String) (ts : List Token) :
    (lex text = ts ↔ Lexed text.toList ts) ∧
      ∀ gap : Nat → String, (∀ n, gap n ≠ "" ∧ Blanks (gap n).toList) →
        (∀ t ∈ ts, t.IsMark ∨ t.IsWord) → lex (spaced gap ts) = ts :=
  ⟨lexed_iff.symm, fun _ hg hk => lex_spaced hg hk⟩

theorem lex_eq_iff_comment :
    let ts : List Token := ["x1", "=", "é", "y", "#"]
    let gap : Nat → String := fun n => if n = 0 then "\t" else " \u3000"
    Lexed "x1=é y#".toList ts ∧ lex (spaced gap ts) = ts := by
  intro ts gap
  have h : lex "x1=é y#" = ts := by decide +kernel
  have hkinds : ∀ t ∈ ts, t.IsMark ∨ t.IsWord := h ▸ kind_of_mem_lexChars _
  have hgap : ∀ n, gap n ≠ "" ∧ Blanks (gap n).toList := by
    intro n
    have htab : "\t" ≠ "" ∧ Blanks "\t".toList := ⟨by decide, by simp [Blanks]; decide⟩
    have hwide : " \u3000" ≠ "" ∧ Blanks " \u3000".toList := ⟨by decide, by simp [Blanks]; decide⟩
    by_cases hn : n = 0
    · simpa [gap, hn] using htab
    · simpa [gap, hn] using hwide
  exact ⟨(lex_eq_iff _ ts).1.mp h, (lex_eq_iff "x1=é y#" ts).2 gap hgap hkinds⟩

end SlotCompiler
