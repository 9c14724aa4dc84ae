import SlotCompiler.Proofs.Naming
import SlotCompiler.Proofs.Renumbering

/-!
# Reading a module

The text of a module falls into lines and its lines into words, and the words of a line tell its
instruction. So the text determines the code, and it says whether the source was accepted:
`listing_of_text`. The names that its lines define are all different: `names_of_compile`.
-/

namespace SlotCompiler

/-! ## Words -/

/-- The words of a call of `printf`, up to its argument. -/
def callWords (size format : String) : List String :=
  ["call", "i32", "(i8*,", "...)*", "@printf(i8*", "getelementptr", size, "x", "i8]*", format, "i32", "0,",
   "i32", "0),", "i32"]

def Instr.words : Instr → List String
  | .alloca slot => [slot.text, "=", "alloca", "i32"]
  | .store value slot => ["store", "i32", value.text ++ ",", "i32*", slot.text]
  | .load dest slot => [tempText dest, "=", "load", "i32*", slot.text]
  | .arith dest op lhs rhs => [tempText dest, "=", op.mnemonic, "i32", lhs.text ++ ",", rhs.text]
  | .test dest kind value =>
    [tempText dest, "=", "icmp", kind.mnemonic, "i32", value.text ++ ",", "0"]
  | .branch cond yes no =>
    ["br", "i1", tempText cond ++ ",", "label", "%" ++ yes.text ++ ",", "label", "%" ++ no.text]
  | .jump target => ["br", "label", "%" ++ target.text]
  | .label here => [here.text ++ ":"]
  | .print value => callWords "([4" "@print.str," ++ [value.text, ")"]
  | .printError line => callWords "([23" "@error.str," ++ [line.repr ++ ")"]

theorem Instr.text_eq (i : Instr) : i.text = " ".intercalate i.words := by
  apply String.toList_inj.mp
  -- The long texts of the calls make the equations of `text` slow, so it is opened by `delta`.
  delta text
  cases i <;> simp [words, callWords, String.intercalate_cons_cons]

theorem Instr.words_ne_nil (i : Instr) : i.words ≠ [] := by
  cases i <;> simp [words]

/-! ## Names and numbers in the text -/

theorem tempText_eq (id : Nat) : tempText id = "%" ++ (Symbol.temp id).name := by
  apply String.toList_inj.mp
  simp [tempText, Symbol.name]

theorem Slot.text_eq (slot : Slot) : slot.text = "%" ++ slot.symbol.name := by
  cases slot with
  | var x => exact String.append_assoc
  | temp id => exact tempText_eq id

@[simp] theorem tempText_inj {t u : Nat} : tempText t = tempText u ↔ t = u := by
  rw [tempText, tempText, String.append_right_inj, Nat.repr_inj]

theorem Slot.text_inj {s s' : Slot} (hs : s.symbol.Proper) (hs' : s'.symbol.Proper) :
    s.text = s'.text ↔ s = s' := by
  refine ⟨fun h => ?_, congrArg _⟩
  rw [text_eq, text_eq, String.append_right_inj] at h
  have hsymbol := Symbol.name_injective hs hs' h
  cases s <;> cases s' <;> simp_all [symbol]

theorem Label.text_inj {l m : Label} (hl : (Symbol.label l).Proper) (hm : (Symbol.label m).Proper) :
    l.text = m.text ↔ l = m :=
  ⟨fun h => Symbol.label.inj (Symbol.name_injective hl hm h), congrArg _⟩

theorem head_repr (n : Int) : ∀ c ∈ n.repr.toList.head?, c ≠ '%' := by
  intro c hc
  cases n with
  | ofNat n =>
    rintro rfl
    exact absurd (isDigit_of_mem_repr (List.mem_of_head? hc)) (by decide)
  | negSucc n =>
    obtain rfl : '-' = c := by simpa [Int.repr] using hc
    decide

@[simp] theorem Operand.text_inj {v w : Operand} : v.text = w.text ↔ v = w := by
  have apart : ∀ {n : Int} {t : Nat}, n.repr ≠ tempText t := by
    intro n t heq
    exact head_repr n '%' (by simp [heq, tempText]) rfl
  cases v with
  | literal n =>
    cases w with
    | literal m => simp [text, Int.repr_inj, Int32.toInt_inj]
    | temp u => simp [text, apart]
  | temp t =>
    cases w with
    | literal m => simp [text, apart.symm]
    | temp u => simp [text]

@[simp] theorem Arith.mnemonic_inj {a b : Arith} : a.mnemonic = b.mnemonic ↔ a = b := by
  cases a <;> cases b <;> simp [mnemonic]

@[simp] theorem Test.mnemonic_inj {k k' : Test} : k.mnemonic = k'.mnemonic ↔ k = k' := by
  cases k <;> cases k' <;> simp [mnemonic]

theorem Instr.words_injective {i j : Instr} (hi : i.Proper) (hj : j.Proper) (h : i.words = j.words) :
    i = j := by
  cases i with
  | alloca slot =>
    cases j with
    | alloca slot' => simpa [words, Slot.text_inj (hi _ (.head _)) (hj _ (.head _))] using h
    | _ => simp [words, callWords] at h
  | store v slot =>
    cases j with
    | store w slot' => simpa [words, Slot.text_inj (hi _ (.head _)) (hj _ (.head _))] using h
    | _ => simp [words, callWords] at h
  | load t slot =>
    cases j with
    | load u slot' => simpa [words, Slot.text_inj (hi _ (.head _)) (hj _ (.head _))] using h
    | _ => simp [words, callWords] at h
  | arith t a l r =>
    cases j with
    | arith u b l' r' => simpa [words] using h
    | _ => simp [words, callWords] at h
  | test t k v =>
    cases j with
    | test u k' w => simpa [words] using h
    | _ => simp [words, callWords] at h
  | branch t yes no =>
    cases j with
    | branch u yes' no' =>
      have hyes := Label.text_inj (hi _ (.head _)) (hj _ (.head _))
      have hno := Label.text_inj (hi _ (.tail _ (.head _))) (hj _ (.tail _ (.head _)))
      simpa [words, hyes, hno] using h
    | _ => simp [words, callWords] at h
  | jump l =>
    cases j with
    | jump m => simpa [words, Label.text_inj (hi _ (.head _)) (hj _ (.head _))] using h
    | _ => simp [words, callWords] at h
  | label l =>
    cases j with
    | label m => simpa [words, Label.text_inj (hi _ (.head _)) (hj _ (.head _))] using h
    | _ => simp [words, callWords] at h
  | print v =>
    cases j with
    | print w => simpa [words] using h
    | _ => simp [words, callWords] at h
  | printError n =>
    cases j with
    | printError m => simpa [words, Nat.repr_inj] using h
    | _ => simp [words, callWords] at h

/-! ## Words and lines are told apart -/

/-- Neither a word nor a line ends inside the text. -/
def Solid (w : String) : Prop := ' ' ∉ w.toList ∧ '\n' ∉ w.toList

instance : DecidablePred Solid := fun w => inferInstanceAs (Decidable (' ' ∉ w.toList ∧ '\n' ∉ w.toList))

@[simp] theorem solid_append {v w : String} : Solid (v ++ w) ↔ Solid v ∧ Solid w := by
  simp only [Solid, String.toList_append, List.mem_append, not_or]
  tauto

theorem solid_of_isNameChar {w : String} (h : ∀ c ∈ w.toList, isNameChar c) : Solid w :=
  ⟨fun hm => absurd (h _ hm) (by decide), fun hm => absurd (h _ hm) (by decide)⟩

@[simp] theorem solid_repr (n : Nat) : Solid n.repr := by
  apply solid_of_isNameChar
  intro c hc
  simp [isNameChar, Char.isAlphanum, isDigit_of_mem_repr hc]

@[simp] theorem solid_tempText (t : Nat) : Solid (tempText t) := by
  simp +decide [tempText]

@[simp] theorem Operand.solid (v : Operand) : Solid v.text := by
  cases v with
  | literal n =>
    rw [text]
    cases n.toInt with
    | ofNat k => exact solid_repr k
    | negSucc k => simp +decide [Int.repr]
  | temp t => exact solid_tempText t

theorem Label.solid (l : Label) : Solid l.text := by
  cases l <;> simp +decide [text]

theorem Token.Atomic.solid {t : Token} (h : t.Atomic) : Solid t := by
  refine ⟨fun hm => ?_, h.not_mem_newline⟩
  cases h with
  | word _ hw => exact absurd (hw ' ' hm).1 (by decide)
  | mark ht hp _ =>
    rw [ht, List.mem_singleton] at hm
    subst hm
    exact absurd hp (by decide)

theorem Slot.solid {slot : Slot} (h : slot.symbol.Proper) : Solid slot.text := by
  cases slot with
  | var x => simp +decide [text, (Token.atomic_of_isName h).solid]
  | temp t => exact solid_tempText t

theorem Instr.solid {i : Instr} (hi : i.Proper) : ∀ w ∈ i.words, Solid w := by
  cases i with
  | alloca slot => simp +decide [words, Slot.solid (hi _ (.head _))]
  | store v slot => simp +decide [words, Slot.solid (hi _ (.head _))]
  | load t slot => simp +decide [words, Slot.solid (hi _ (.head _))]
  | arith t a l r => cases a <;> simp +decide [words, Arith.mnemonic]
  | test t k v => cases k <;> simp +decide [words, Test.mnemonic]
  | branch t yes no => simp +decide [words, Label.solid]
  | jump l => simp +decide [words, Label.solid]
  | label l => simp +decide [words, Label.solid]
  | print v => simp +decide [words, callWords]
  | printError n => simp +decide [words, callWords]

section
variable {i j : Instr}

theorem Instr.splitOn_text (hi : i.Proper) : i.text.toList.splitOn ' ' = i.words.map String.toList := by
  have hblank : ∀ w ∈ i.words.map String.toList, ' ' ∉ w := by
    intro cs hcs
    obtain ⟨w, hw, rfl⟩ := List.mem_map.mp hcs
    exact (Instr.solid hi w hw).1
  rw [text_eq, String.toList_intercalate]
  exact List.splitOn_intercalate ' ' hblank (by simp [i.words_ne_nil])

theorem Instr.text_injective (hi : i.Proper) (hj : j.Proper) (h : i.text = j.text) : i = j := by
  have hwords := congrArg (fun text => text.toList.splitOn ' ') h
  simp only [splitOn_text hi, splitOn_text hj] at hwords
  exact words_injective hi hj (List.map_injective_iff.mpr (fun _ _ => String.toList_inj.mp) hwords)

theorem Instr.not_mem_text (hi : i.Proper) : '\n' ∉ i.text.toList := by
  rw [text_eq]
  exact not_mem_newline_intercalate fun w hw => (Instr.solid hi w hw).2

end

section
variable {code code' : List Instr}

theorem splitLines_moduleText (h : ∀ i ∈ code, i.Proper) : splitLines (moduleText code).toList =
    (moduleHead ++ code.map Instr.text ++ moduleEnd).map String.toList := by
  have hline : ∀ text ∈ moduleHead ++ code.map Instr.text ++ moduleEnd, '\n' ∉ text.toList := by
    intro text ht
    simp only [List.mem_append, List.mem_map] at ht
    rcases ht with (ht | ⟨i, hi, rfl⟩) | ht
    · revert text
      simp [moduleHead]
    · exact Instr.not_mem_text (h i hi)
    · revert text
      simp [moduleEnd]
  have hsplit := splitLines_unlines hline []
  rwa [List.append_nil, splitLines, List.append_nil] at hsplit

theorem eq_of_map_text (h : ∀ i ∈ code, i.Proper) (h' : ∀ i ∈ code', i.Proper)
    (ht : code.map Instr.text = code'.map Instr.text) : code = code' := by
  induction code generalizing code' with
  | nil => exact (List.map_eq_nil_iff.mp ht.symm).symm
  | cons i code ih =>
    cases code' with
    | nil => cases ht
    | cons j code' =>
      obtain ⟨hi, hcode⟩ := List.forall_mem_cons.mp h
      obtain ⟨hj, hcode'⟩ := List.forall_mem_cons.mp h'
      rw [List.map_cons, List.map_cons, List.cons.injEq] at ht
      rw [Instr.text_injective hi hj ht.1, ih hcode hcode' ht.2]

theorem moduleText_injective (h : ∀ i ∈ code, i.Proper) (h' : ∀ i ∈ code', i.Proper)
    (ht : moduleText code = moduleText code') : code = code' := by
  have hlines := congrArg (fun text => splitLines text.toList) ht
  simp only [splitLines_moduleText h, splitLines_moduleText h'] at hlines
  have htexts := List.map_injective_iff.mpr (fun _ _ => String.toList_inj.mp) hlines
  rw [List.append_left_inj, List.append_right_inj] at htexts
  exact eq_of_map_text h h' htexts

end

/-! ## Names that a module defines -/

/-- The name that a line defines: that of a label stands in front of a colon, any other one behind the
percent sign on the left of an equals sign. -/
def definedName? (line : List Char) : Option String :=
  match line.splitOn ' ' with
  | [word] => if word.getLast? = some ':' then some (String.ofList word.dropLast) else none
  | word :: sign :: _ =>
    if sign = ['='] ∧ word.head? = some '%' then some (String.ofList word.tail) else none
  | [] => none

def definedNames (text : String) : List String := (splitLines text.toList).filterMap definedName?

theorem Instr.definedName?_text {i : Instr} (hi : i.Proper) :
    definedName? i.text.toList = i.symbol?.map Symbol.name := by
  unfold definedName?
  rw [splitOn_text hi]
  cases i with
  | alloca slot => simp [words, symbol?, Slot.text_eq]
  | load t slot => simp [words, symbol?, tempText_eq]
  | arith t a l r => simp [words, symbol?, tempText_eq]
  | test t k v => simp [words, symbol?, tempText_eq]
  | label l => simp [words, symbol?, Symbol.name]
  | _ => simp [words, callWords, symbol?]

theorem definedNames_moduleText {code : List Instr} (h : ∀ i ∈ code, i.Proper) :
    definedNames (moduleText code) = (symbols code).map Symbol.name := by
  have hhead : (moduleHead.map String.toList).filterMap definedName? = [] := by decide +kernel
  have hend : (moduleEnd.map String.toList).filterMap definedName? = [] := by decide +kernel
  rw [definedNames, splitLines_moduleText h, List.map_append, List.map_append, List.filterMap_append,
    List.filterMap_append, hhead, hend, List.nil_append, List.append_nil, symbols, List.map_filterMap,
    List.map_map, List.filterMap_map]
  exact List.filterMap_congr fun i hi => Instr.definedName?_text (h i hi)

/-! ## Compiled sources -/

section
variable {source : String} {code : List Instr}

theorem accepted_iff : (compile source).verdict = .accepted ↔ ∃ code, lowerSource source = .ok code := by
  unfold compile
  cases lowerSource source with
  | ok code => simp
  | error e => simp

theorem text_of_lowerSource (h : lowerSource source = .ok code) :
    (compile source).text = moduleText code := by
  unfold compile
  rw [h]

/-- The names that the module of an accepted source defines are those of the symbols of its code. They
are all different, and nothing else that could be named has one of them. -/
theorem names_of_compile (h : (compile source).verdict = .accepted) :
    ∃ code, lowerSource source = .ok code ∧
      definedNames (compile source).text = (symbols code).map Symbol.name ∧
      (definedNames (compile source).text).Nodup ∧
      ∀ a ∈ symbols code, ∀ b : Symbol, b.Proper → a.name = b.name → a = b := by
  obtain ⟨code, hcode⟩ := accepted_iff.mp h
  have hproper := proper_of_lowerSource hcode
  have hsymbols := proper_of_mem_symbols hproper
  have hnames := definedNames_moduleText hproper
  rw [text_of_lowerSource hcode]
  refine ⟨code, hcode, hnames, ?_, fun a ha b hb => Symbol.name_injective (hsymbols a ha) hb⟩
  rw [hnames]
  refine List.Nodup.map_on ?_ (symbols_nodup_of_lowerSource hcode)
  intro a ha b hb
  exact Symbol.name_injective (hsymbols a ha) (hsymbols b hb)

end

theorem names_of_compile_choose00 :
    (compile "t1 = choose(t1r, ifend0, choose00, t)\nif (t1) \x7b t = 1 \x7d").verdict = .accepted ∧
      (definedNames
        (compile "t1 = choose(t1r, ifend0, choose00, t)\nif (t1) \x7b t = 1 \x7d").text).Nodup := by
  have h : (compile "t1 = choose(t1r, ifend0, choose00, t)\nif (t1) \x7b t = 1 \x7d").verdict =
      .accepted := by decide +kernel
  obtain ⟨_, _, _, hnames, _⟩ := names_of_compile h
  exact ⟨h, hnames⟩

section
variable {names : List String} {d d' : Draft} {cs : List Instr}

theorem Evaluates.not_mem_printError {ps : List Nat} (h : Evaluates names d ps cs d') (line : Nat) :
    .printError line ∉ cs := by
  induction h with
  | start => simp
  | grant _ _ _ _ ih => simp [ih]
  | load _ _ ih => simp [ih]
  | arith _ _ _ ih => simp [ih]
  | reserve _ ih => exact ih
  | select _ _ _ _ _ ih => simp [ih, selectCode]

theorem Emits.not_mem_printError (h : Emits names d cs d') (line : Nat) : .printError line ∉ cs := by
  induction h with
  | done => simp
  | print he _ _ ih => simp [ih, he.not_mem_printError]
  | assign he _ _ _ ih => simp [ih, he.not_mem_printError]
  | control c he _ _ _ ihb ihr =>
    have henter : ∀ id, .printError line ∉ c.enter id := by cases c <;> simp [Control.enter]
    simp [ihb, ihr, he.not_mem_printError, henter, Control.guard, Control.close]

end

section
variable {source : String}

theorem not_mem_printError_of_lowerSource {code : List Instr} (h : lowerSource source = .ok code)
    (line : Nat) : .printError line ∉ code := by
  obtain ⟨_, _, _, _, _, hc, _, hd, rfl⟩ := emits_of_lowerProgram h
  simp [hc.not_mem_printError, hd.not_mem_printError]

theorem proper_printError (line : Nat) : ∀ i ∈ [Instr.printError line], i.Proper := by
  simp [Instr.Proper, Instr.mentions]

theorem text_eq_errorModule_iff (line : Nat) :
    (compile source).text = errorModule line ↔ (compile source).verdict = .rejected line := by
  unfold compile
  cases hs : lowerSource source with
  | ok code =>
    refine ⟨fun h => ?_, fun h => by cases h⟩
    have hcode := moduleText_injective (proper_of_lowerSource hs) (proper_printError line) h
    exact absurd (hcode ▸ List.mem_singleton_self _) (not_mem_printError_of_lowerSource hs line)
  | error e =>
    simp only [Verdict.rejected.injEq]
    refine ⟨fun h => ?_, congrArg errorModule⟩
    simpa using moduleText_injective (proper_printError e.line) (proper_printError line) h

end

/-- The text of a module determines its code, and the text of a listing determines its verdict. -/
theorem listing_of_text :
    (∀ code code' : List Instr, (∀ i ∈ code, i.Proper) → (∀ i ∈ code', i.Proper) →
      moduleText code = moduleText code' → code = code') ∧
    (∀ source source', (compile source).text = (compile source').text →
      (compile source).verdict = (compile source').verdict) ∧
    ∀ source line, (compile source).text = errorModule line ↔ (compile source).verdict = .rejected line := by
  refine ⟨fun code code' => moduleText_injective, fun source source' h => ?_, fun _ =>
    text_eq_errorModule_iff⟩
  cases hv : (compile source).verdict with
  | rejected line =>
    rw [← text_eq_errorModule_iff, h, text_eq_errorModule_iff] at hv
    exact hv.symm
  | accepted =>
    cases hv' : (compile source').verdict with
    | accepted => rfl
    | rejected line =>
      rw [← text_eq_errorModule_iff, ← h, text_eq_errorModule_iff, hv] at hv'
      exact hv'

theorem listing_of_text_comment :
    moduleText [.alloca (.var "t1"), .label (.chooseArm 1 12)] ≠
        moduleText [.alloca (.temp 1), .label (.chooseArm 1 12)] ∧
      (compile "x = 1").text = (compile " x=1 # one").text ∧
      (compile "x = 1").verdict = (compile " x=1 # one").verdict := by
  have h : (compile "x = 1").text = (compile " x=1 # one").text := by decide +kernel
  refine ⟨fun htext => ?_, h, listing_of_text.2.1 _ _ h⟩
  have hname : Token.isName "t1" := by decide
  have hvar : ∀ i ∈ [.alloca (.var "t1"), .label (.chooseArm 1 12)], Instr.Proper i := by
    simp [Instr.Proper, Instr.mentions, Symbol.Proper, Slot.symbol, hname]
  have htemp : ∀ i ∈ [.alloca (.temp 1), .label (.chooseArm 1 12)], Instr.Proper i := by
    simp [Instr.Proper, Instr.mentions, Symbol.Proper, Slot.symbol]
  exact absurd (listing_of_text.1 _ _ hvar htemp htext) (by decide)

end SlotCompiler
