import SlotCompiler.Proofs.Spelling

/-!
# Reading a layout

The tokens of a layout, written with blanks between them and one line for each statement, are read
back from that text: `Laid.readLines_sourceText`.
-/

namespace SlotCompiler

/-! ## Single tokens -/

/-- A text that is one token, and no comment: a word, or a punctuator. -/
inductive Token.Atomic (t : Token) : Prop
  | word : t.toList ≠ [] → (∀ c ∈ t.toList, isBlank c = false ∧ isPunctuator c = false) → Atomic t
  | mark {c : Char} : t.toList = [c] → isPunctuator c → c ≠ '#' → Atomic t

theorem isBlank_of_isPunctuator {c : Char} (h : isPunctuator c) : isBlank c = false := by
  simp only [isPunctuator, punctuators, List.contains_eq_mem, List.mem_cons, List.not_mem_nil, or_false,
    decide_eq_true_eq] at h
  rcases h with rfl | rfl | rfl | rfl | rfl | rfl | rfl | rfl | rfl | rfl | rfl <;> decide

theorem isBlank_of_isNameChar {c : Char} (h : isNameChar c) : isBlank c = false := by
  have hc : (65 ≤ c.toNat ∧ c.toNat ≤ 90 ∨ 97 ≤ c.toNat ∧ c.toNat ≤ 122) ∨ 48 ≤ c.toNat ∧ c.toNat ≤ 57 ∨
      c.toNat = 95 := by
    simp only [isNameChar, Char.isAlphanum, Char.isAlpha, Char.isUpper, Char.isLower, Char.isDigit,
      Bool.or_eq_true, Bool.and_eq_true, decide_eq_true_eq, ge_iff_le, UInt32.le_iff_toNat_le] at h
    rcases h with (h | h) | rfl
    · exact .inl h
    · exact .inr (.inl h)
    · exact .inr (.inr rfl)
  simp [isBlank, blankRanges]
  omega

theorem isPunctuator_of_isNameChar {c : Char} (h : isNameChar c) : isPunctuator c = false := by
  refine Bool.eq_false_iff.mpr fun hp => ?_
  simp only [isPunctuator, punctuators, List.contains_eq_mem, List.mem_cons, List.not_mem_nil, or_false,
    decide_eq_true_eq] at hp
  rcases hp with rfl | rfl | rfl | rfl | rfl | rfl | rfl | rfl | rfl | rfl | rfl <;> exact absurd h (by decide)

theorem isDigit_of_mem_repr {k : Nat} {c : Char} (h : c ∈ k.repr.toList) : c.isDigit := by
  rw [Nat.toList_repr] at h
  exact Nat.isDigit_of_mem_toDigits (by decide) (by decide) h

section
variable {t : Token} {ts : List Token} {cs : List Char}

theorem flush_of_ne_nil (h : cs ≠ []) : flush cs ts = String.ofList cs :: ts := by
  cases cs with
  | nil => exact absurd rfl h
  | cons c cs => rfl

theorem lexWord_append {word : List Char} (hw : ∀ c ∈ word, isBlank c = false ∧ isPunctuator c = false)
    (h : lexWord cs = ([], ts)) : lexWord (word ++ cs) = (word, ts) := by
  induction word with
  | nil => exact h
  | cons c word ih =>
    obtain ⟨⟨hb, hp⟩, hw⟩ := List.forall_mem_cons.mp hw
    simp [lexWord, ih hw, hb, hp]

theorem Token.Atomic.lexChars_append (h : t.Atomic) (hcs : (lexWord cs).1 = []) :
    lexChars (t.toList ++ cs) = t :: lexChars cs := by
  have hword : lexWord cs = ([], lexChars cs) := by
    rw [lexChars, hcs]
    exact Prod.ext hcs rfl
  cases h with
  | word hne hw =>
    rw [lexChars, lexWord_append hw hword, flush_of_ne_nil hne, String.ofList_toList]
  | @mark c ht hp _ =>
    have hb := isBlank_of_isPunctuator hp
    have hc : t = String.singleton c := String.toList_inj.mp (by rw [ht, String.toList_singleton])
    rw [lexChars, ht, List.singleton_append, lexWord, hword, hc]
    simp [flush, hb, hp]

theorem lexChars_blank (cs : List Char) : lexChars (' ' :: cs) = lexChars cs := rfl

theorem lexChars_intercalate (h : ∀ t ∈ ts, t.Atomic) : lexChars (" ".intercalate ts).toList = ts := by
  induction ts with
  | nil => rfl
  | cons t ts ih =>
    obtain ⟨ht, hts⟩ := List.forall_mem_cons.mp h
    cases ts with
    | nil =>
      rw [String.intercalate_singleton, ← List.append_nil t.toList]
      exact ht.lexChars_append rfl
    | cons u us =>
      -- The blank keeps the two tokens apart.
      have hlex : lexChars (t.toList ++ ' ' :: (" ".intercalate (u :: us)).toList) = t :: u :: us := by
        rw [ht.lexChars_append rfl, lexChars_blank, ih hts]
      simpa [String.intercalate_cons_cons] using hlex

theorem atomic_of_mem_flush {word : List Char} (hw : ∀ c ∈ word, isBlank c = false ∧ isPunctuator c = false)
    (hts : ∀ u ∈ ts, u.Atomic ∨ u = "#") : ∀ u ∈ flush word ts, u.Atomic ∨ u = "#" := by
  cases word with
  | nil => exact hts
  | cons c word =>
    refine List.forall_mem_cons.mpr ⟨.inl (.word ?_ ?_), hts⟩
    · simp
    · rwa [String.toList_ofList]

theorem atomic_of_mem_lexWord (cs : List Char) :
    (∀ c ∈ (lexWord cs).1, isBlank c = false ∧ isPunctuator c = false) ∧
      ∀ u ∈ (lexWord cs).2, u.Atomic ∨ u = "#" := by
  induction cs with
  | nil => simp [lexWord]
  | cons c cs ih =>
    obtain ⟨hw, hts⟩ := ih
    have hflush := atomic_of_mem_flush hw hts
    simp only [lexWord]
    split
    · exact ⟨by simp, hflush⟩
    · rename_i hb
      split
      · rename_i hp
        refine ⟨by simp, List.forall_mem_cons.mpr ⟨?_, hflush⟩⟩
        by_cases hc : c = '#'
        · exact .inr (by rw [hc]; rfl)
        · exact .inl (.mark (String.toList_singleton c) hp hc)
      · rename_i hp
        exact ⟨List.forall_mem_cons.mpr ⟨⟨by simpa using hb, by simpa using hp⟩, hw⟩, hts⟩

/-- Whatever the text, its tokens are words, punctuators and comment marks. -/
theorem atomic_of_mem_lexChars : ∀ u ∈ lexChars cs, u.Atomic ∨ u = "#" :=
  atomic_of_mem_flush (atomic_of_mem_lexWord cs).1 (atomic_of_mem_lexWord cs).2

theorem Token.Atomic.ne_comment (h : t.Atomic) : t ≠ "#" := by
  rintro rfl
  cases h with
  | word _ hw => exact absurd (hw '#' (by decide)) (by decide)
  | mark ht _ hc => cases ht; exact absurd rfl hc

theorem dropComment_of_atomic (h : ∀ t ∈ ts, t.Atomic) : dropComment ts = ts := by
  induction ts with
  | nil => rfl
  | cons t ts ih =>
    obtain ⟨ht, hts⟩ := List.forall_mem_cons.mp h
    have hrest := ih hts
    rw [dropComment] at hrest ⊢
    rw [List.takeWhile_cons_of_pos (by simpa using ht.ne_comment), hrest]

theorem Token.Atomic.not_mem_newline (h : t.Atomic) : '\n' ∉ t.toList := by
  intro hm
  cases h with
  | word _ hw => exact absurd (hw '\n' hm).1 (by decide)
  | mark ht hp _ =>
    rw [ht, List.mem_singleton] at hm
    subst hm
    exact absurd hp (by decide)

theorem not_mem_newline_intercalate (h : ∀ t ∈ ts, '\n' ∉ t.toList) :
    '\n' ∉ (" ".intercalate ts).toList := by
  induction ts with
  | nil => simp
  | cons t ts ih =>
    obtain ⟨ht, hts⟩ := List.forall_mem_cons.mp h
    cases ts with
    | nil => simpa using ht
    | cons u us =>
      have hrest := ih hts
      simp only [String.intercalate_cons_cons, String.toList_append, List.mem_append] at hrest ⊢
      exact fun hm => hm.elim (fun hm => hm.elim ht (by decide)) hrest

end

/-! ## Lines -/

theorem splitLines_append {cs : List Char} (h : '\n' ∉ cs) (rest : List Char) :
    splitLines (cs ++ '\n' :: rest) = cs :: splitLines rest := by
  induction cs with
  | nil => simp [splitLines]
  | cons c cs ih =>
    rw [List.mem_cons, not_or] at h
    simp [splitLines, ih h.2, Ne.symm h.1]

theorem tokens_numberLines (n : Nat) (ls : List (List Token)) :
    (numberLines n ls).map Line.tokens = ls := by
  induction ls generalizing n with
  | nil => rfl
  | cons ts ls ih => simp [numberLines, ih]

theorem splitLines_sourceText {ls : List (List Token)} (h : ∀ ts ∈ ls, ∀ t ∈ ts, t.Atomic) :
    splitLines (sourceText ls).toList = ls.map fun ts => (" ".intercalate ts).toList := by
  induction ls with
  | nil => rfl
  | cons ts ls ih =>
    obtain ⟨hts, hls⟩ := List.forall_mem_cons.mp h
    have hfeed := not_mem_newline_intercalate fun t ht => (hts t ht).not_mem_newline
    have hline := splitLines_append hfeed (sourceText ls).toList
    rw [ih hls] at hline
    simpa [sourceText, unlines] using hline

theorem readLines_sourceText_of_atomic {ls : List (List Token)} (h : ∀ ts ∈ ls, ∀ t ∈ ts, t.Atomic) :
    (readLines (sourceText ls)).map Line.tokens = ls := by
  rw [readLines, tokens_numberLines, splitLines_sourceText h, List.map_map]
  refine (List.map_congr_left fun ts hts => ?_).trans (List.map_id ls)
  exact (congrArg dropComment (lexChars_intercalate (h ts hts))).trans (dropComment_of_atomic (h ts hts))

/-! ## Tokens of a layout -/

theorem Token.atomic_of_isNameChar {t : Token} (hne : t.toList ≠ []) (h : t.toList.all isNameChar) :
    t.Atomic := by
  refine .word hne fun c hc => ?_
  have hname := List.all_eq_true.mp h c hc
  exact ⟨isBlank_of_isNameChar hname, isPunctuator_of_isNameChar hname⟩

theorem Token.atomic_of_isName {t : Token} (h : t.isName) : t.Atomic := by
  unfold isName at h
  split at h
  · cases h
  · rename_i c cs ht
    simp only [Bool.and_eq_true, isNameStart, Bool.or_eq_true, decide_eq_true_eq] at h
    refine atomic_of_isNameChar (by simp [ht]) ?_
    rw [ht, List.all_cons, h.1.2, Bool.and_true]
    simp only [isNameChar, Char.isAlphanum, Bool.or_eq_true, decide_eq_true_eq]
    exact h.1.1.imp_left .inl

theorem Token.atomic_of_digits {t : Token} {ds : List Char} {n : Nat} (ht : t.toList = ds)
    (h : digits? ds = some n) : t.Atomic := by
  unfold digits? at h
  split at h
  · rename_i hd
    refine atomic_of_isNameChar (ht ▸ hd.1) (List.all_eq_true.mpr fun c hc => ?_)
    have hdigit := List.all_eq_true.mp hd.2 c (ht ▸ hc)
    simp [isNameChar, Char.isAlphanum, hdigit]
  · cases h

theorem Token.atomic_of_isDigits {t : Token} {n : Int32} (h : t.isDigits) (hn : t.number? = some n) :
    t.Atomic := by
  unfold number? at hn
  split at hn
  · rename_i ds ht
    exact absurd h (by simp [isDigits, ht])
  · rename_i ds ht
    exact absurd h (by simp [isDigits, ht])
  · obtain ⟨k, hk, _⟩ := Option.bind_eq_some_iff.mp hn
    exact atomic_of_digits rfl hk

theorem Token.atomic_of_negative {t : Token} {n : Int32} (hn : Token.number? ("-" ++ t) = some n) :
    t.Atomic := by
  have ht : ("-" ++ t).toList = '-' :: t.toList := by simp
  simp only [number?, ht] at hn
  obtain ⟨k, hk, _⟩ := Option.bind_eq_some_iff.mp hn
  exact atomic_of_digits rfl hk

theorem Spelled.atomic {k : Nat} {e : Expr} {ts : List Token} (h : Spelled k e ts) :
    ∀ t ∈ ts, t.Atomic := by
  have hopen : Token.Atomic "(" := .mark rfl (by decide) (by decide)
  have hclose : Token.Atomic ")" := .mark rfl (by decide) (by decide)
  have hcomma : Token.Atomic "," := .mark rfl (by decide) (by decide)
  induction h with
  | int ht hn => simpa using Token.atomic_of_isDigits ht hn
  | negative ht hn =>
    have hminus : Token.Atomic "-" := .mark rfl (by decide) (by decide)
    simpa using ⟨hminus, Token.atomic_of_negative hn⟩
  | var hx => simpa using Token.atomic_of_isName hx
  | paren _ ih =>
    simp only [List.forall_mem_cons, List.forall_mem_append]
    exact ⟨hopen, ih, hclose, by simp⟩
  | choose _ _ _ _ ihs ihz ihp ihn =>
    have hchoose : Token.Atomic "choose" := Token.atomic_of_isNameChar (by decide) (by decide)
    simp only [intercalate_four, List.forall_mem_cons, List.forall_mem_append]
    exact ⟨hchoose, hopen, ⟨ihs, hcomma, ihz, hcomma, ihp, hcomma, ihn⟩, hclose, by simp⟩
  | @op a _ _ _ _ _ _ ihl ihr =>
    have hop : Token.Atomic a.token := by
      cases a <;> exact .mark rfl (by decide) (by decide)
    simp only [List.forall_mem_cons, List.forall_mem_append]
    exact ⟨ihl, hop, ihr⟩
  | lower _ ih => exact ih

theorem Laid.atomic {P : Program} {ls : List (List Token)} (h : Laid P ls) :
    ∀ ts ∈ ls, ∀ t ∈ ts, t.Atomic := by
  have hopen : Token.Atomic "(" := .mark rfl (by decide) (by decide)
  have hclose : Token.Atomic ")" := .mark rfl (by decide) (by decide)
  induction h with
  | done => simp
  | assign hx he _ ih =>
    have hsign : Token.Atomic "=" := .mark rfl (by decide) (by decide)
    simp only [List.forall_mem_cons]
    exact ⟨⟨Token.atomic_of_isName hx, hsign, he.atomic⟩, ih⟩
  | print he _ ih =>
    have hprint : Token.Atomic "print" := Token.atomic_of_isNameChar (by decide) (by decide)
    simp only [List.forall_mem_cons, List.forall_mem_append]
    exact ⟨⟨hprint, hopen, he.atomic, hclose, by simp⟩, ih⟩
  | @control c _ _ _ _ _ _ he _ _ ihb ihn =>
    have hkeyword : c.keyword.Atomic := by
      cases c <;> exact Token.atomic_of_isNameChar (by decide) (by decide)
    have hbrace : Token.Atomic openBrace := .mark rfl (by decide) (by decide)
    have hbrace' : Token.Atomic closeBrace := .mark rfl (by decide) (by decide)
    simp only [List.forall_mem_cons, List.forall_mem_append]
    exact ⟨⟨hkeyword, hopen, he.atomic, hclose, hbrace, by simp⟩, ihb, ⟨hbrace', by simp⟩, ihn⟩

theorem Laid.readLines_sourceText {P : Program} {ls : List (List Token)} (h : Laid P ls) :
    (readLines (sourceText ls)).map Line.tokens = ls :=
  readLines_sourceText_of_atomic h.atomic

end SlotCompiler
