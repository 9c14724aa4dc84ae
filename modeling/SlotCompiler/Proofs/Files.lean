import SlotCompiler.File.Command
import SlotCompiler.File.Store
import SlotCompiler.Proofs.ModuleText
import SlotCompiler.Proofs.Paths

/-!
# What compiling a file leaves in a store

A write changes the entry at one place, and a path that leads somewhere goes through directories only, so
it leads to the same place after the write. The listing of a source is therefore found where it was
written, and the source is left alone unless the two names are one. They are for the sources that have the
extension of a listing: `compileFile_frames`.
-/

namespace SlotCompiler

namespace Store

/-! ## Places -/

section
variable {s : Store} {p q r : Place} {e : Entry}

theorem entry?_put (h : s.entry? p ≠ some .directory) (e : Entry) (q : Place) :
    entry? (s.put p e) q = if q = p then some e else s.entry? q := by
  unfold entry? put
  by_cases hq : q = p
  · subst hq
    rw [if_pos rfl]
    cases hn : q.names with
    | nil => exact absurd (by simp [ entry?, hn]) h
    | cons name names => simp
  · rw [if_neg hq]
    cases q.names with
    | nil => rfl
    | cons name names => simp [List.lookup_cons, beq_false_of_ne hq]

/-- A step starts from a directory, and stays, goes up, or goes down to a name. -/
theorem step_cases {c : List Char} (h : s.step q c = .ok r) : s.entry? q = some .directory ∧
    (r = q ∨ r = q.parent ∨ Path.isFileName c ∧ r = q.child (String.ofList c)) := by
  unfold step at h
  split at h
  · cases h
  · cases h
  rename_i hq
  refine ⟨hq, ?_⟩
  split at h
  · cases h
    exact .inl rfl
  split at h
  · cases h
    exact .inr (.inl rfl)
  · rename_i hdot hdots
    cases h
    rw [not_or] at hdot
    exact .inr (.inr ⟨Path.isFileName_iff.mpr ⟨hdot.1, hdot.2, hdots⟩, rfl⟩)

theorem step_put {c : List Char} (hp : s.entry? p ≠ some .directory) (h : s.step q c = .ok r) :
    (s.put p e).step q c = .ok r := by
  obtain ⟨hq, _⟩ := step_cases h
  have hne : q ≠ p := by
    rintro rfl
    exact hp hq
  rw [← h, step, step, entry?_put hp, if_neg hne]

theorem bind_ok {ε α β : Type} {x : Except ε α} {f : α → Except ε β} {b : β} (h : x >>= f = .ok b) :
    ∃ a, x = .ok a ∧ f a = .ok b := by
  cases x with
  | error e => cases h
  | ok a => exact ⟨a, rfl, h⟩

theorem foldlM_put {cs : List (List Char)} (hp : s.entry? p ≠ some .directory)
    (h : cs.foldlM s.step q = .ok r) : cs.foldlM (s.put p e).step q = .ok r := by
  induction cs generalizing q with
  | nil => exact h
  | cons c cs ih =>
    rw [List.foldlM_cons] at h ⊢
    obtain ⟨q', hs, hrest⟩ := bind_ok h
    rw [step_put hp hs]
    exact ih hrest

theorem resolve_put {path : String} (hp : s.entry? p ≠ some .directory) (h : s.resolve path = .ok q) :
    (s.put p e).resolve path = .ok q := by
  unfold resolve at h ⊢
  split at h
  · cases h
  · rename_i hne
    rw [if_neg hne]
    exact foldlM_put hp h

/-- All places above are directories. -/
def Rooted (s : Store) (q : Place) : Prop :=
  ∀ below name above, q.names = below ++ name :: above → s.entry? ⟨q.base, above⟩ = some .directory

theorem Rooted.parent (h : s.Rooted q) : s.entry? q.parent = some .directory := by
  obtain ⟨base, names⟩ := q
  cases names with
  | nil => cases base <;> rfl
  | cons name names => exact h [] name names rfl

theorem Rooted.step {c : List Char} (h : s.Rooted q) (hs : s.step q c = .ok r) : s.Rooted r := by
  obtain ⟨hq, rfl | rfl | ⟨_, rfl⟩⟩ := step_cases hs
  · exact h
  · obtain ⟨base, names⟩ := q
    intro below name above hnames
    cases names with
    | nil => cases base <;> simp [Place.parent] at hnames
    | cons first names => exact h (first :: below) name above (congrArg (first :: ·) hnames)
  · intro below name above hnames
    cases below with
    | nil =>
      cases hnames
      exact hq
    | cons first below => exact h below name above (List.cons.inj hnames).2

theorem rooted_of_foldlM {cs : List (List Char)} (hq : s.Rooted q) (h : cs.foldlM s.step q = .ok r) :
    s.Rooted r := by
  induction cs generalizing q with
  | nil => cases h; exact hq
  | cons c cs ih =>
    rw [List.foldlM_cons] at h
    obtain ⟨q', hs, hrest⟩ := bind_ok h
    exact ih (hq.step hs) hrest

def enter (s : Store) (front : List Char) : Except Fault Place :=
  (Path.components front).dropLast.foldlM s.step (.start front)

theorem rooted_of_enter {front : List Char} (h : s.enter front = .ok q) : s.Rooted q := by
  refine rooted_of_foldlM (fun below name above hnames => ?_) h
  simp [Place.start] at hnames

theorem resolve_append {front name : List Char} (hf : Path.IsFront front) (hn : '/' ∉ name)
    (hne : front ++ name ≠ []) :
    s.resolve (String.ofList (front ++ name)) = s.enter front >>= (s.step · name) := by
  have hempty : String.ofList (front ++ name) ≠ "" := fun h => hne (by simpa using congrArg String.toList h)
  have hstart : Place.start (front ++ name) = .start front := by
    unfold Place.start
    obtain rfl | ⟨dir, rfl⟩ := hf
    · have hhead : name.head? ≠ some '/' := fun h => hn (List.mem_of_head? h)
      simp [hhead]
    · cases dir <;> simp
  rw [resolve, if_neg hempty, String.toList_ofList, hstart, Path.components_append hf hn, List.foldlM_append]
  simp only [List.foldlM_cons, List.foldlM_nil, bind_pure]
  rfl

section
variable {front name : List Char}

theorem resolve_entry (h : Path.IsEntry front name) (hq : s.enter front = .ok q)
    (hd : s.entry? q = some .directory) :
    s.resolve (String.ofList (front ++ name)) = .ok (q.child (String.ofList name)) := by
  obtain ⟨hne, hdot, hdots⟩ := Path.isFileName_iff.mp h.file
  rw [resolve_append h.front h.plain (by simp [hne]), hq]
  simp [bind, Except.bind, step, hd, hne, hdot, hdots]

/-- A path that does not lead to a directory ends with the name of a file. -/
theorem exists_entry {path : String} (h : s.resolve path = .ok p) (hp : s.entry? p ≠ some .directory) :
    ∃ front name q, path = String.ofList (front ++ name) ∧ Path.IsEntry front name ∧ s.enter front = .ok q ∧
      s.entry? q = some .directory ∧ p = q.child (String.ofList name) := by
  obtain ⟨front, name, hpath, hf, hn⟩ := Path.exists_front path.toList
  obtain rfl : path = String.ofList (front ++ name) := by rw [← hpath, String.ofList_toList]
  have hne : front ++ name ≠ [] := by
    intro hnil
    rw [hnil] at h
    cases h
  rw [resolve_append hf hn hne] at h
  obtain ⟨q, hq, hs⟩ := bind_ok h
  obtain ⟨hd, rfl | rfl | ⟨hfile, rfl⟩⟩ := step_cases hs
  · exact absurd hd hp
  · exact absurd (rooted_of_enter hq).parent hp
  · exact ⟨front, name, q, rfl, ⟨hf, hn, hfile⟩, hq, hd, rfl⟩

theorem directory_of_resolve_above (hf : Path.IsFront front) (hq : s.enter front = .ok q)
    (h : s.resolve (String.ofList (front ++ ['.', '.'])) = .ok p) : s.entry? p = some .directory := by
  rw [resolve_append hf (by decide) (by simp), hq] at h
  have hs : s.step q ['.', '.'] = .ok p := h
  obtain ⟨hd, rfl | rfl | ⟨hfile, _⟩⟩ := step_cases hs
  · exact hd
  · exact (rooted_of_enter hq).parent
  · cases hfile

theorem output_eq_iff {input : String} (hi : s.resolve input = .ok q) (hq : s.entry? q ≠ some .directory)
    (ho : s.resolve (outputPath input) = .ok p) (hp : s.entry? p ≠ some .directory) :
    p = q ↔ Path.extension? input.toList = some ['l', 'l'] := by
  obtain ⟨front, name, d, rfl, hname, hd, hdir, rfl⟩ := exists_entry hi hq
  obtain ⟨out, hout, rfl | ⟨hentry, hext⟩⟩ := hname.exists_output
  · -- Only the dots are left of such a name, and nothing is written to a directory.
    rw [hout] at ho
    exact absurd (directory_of_resolve_above hname.front hd ho) hp
  · rw [hout, resolve_entry hentry hd hdir] at ho
    cases ho
    rw [String.toList_ofList, ← hext]
    simp [Place.child, String.ofList_inj]

end

end

/-! ## Reading and writing -/

section
variable {s s' : Store} {p q : Place} {path : String} {content : ByteArray} {text : String}

theorem exists_of_read (h : s.read path = .ok text) :
    ∃ p content, s.resolve path = .ok p ∧ s.entry? p = some (.file content) := by
  unfold read at h
  split at h
  · cases h
  · rename_i p hp
    split at h
    · cases h
    · cases h
    · rename_i content hc
      exact ⟨p, content, hp, hc⟩

theorem exists_of_write (h : s.write path content = .ok s') :
    ∃ p, s.resolve path = .ok p ∧ s.entry? p ≠ some .directory ∧ s' = s.put p (.file content) := by
  unfold write at h
  split at h
  · cases h
  · rename_i p hp
    split at h
    · cases h
    · rename_i hd
      cases h
      exact ⟨p, hp, hd, rfl⟩

theorem fromUTF8?_toUTF8 (text : String) : String.fromUTF8? text.toUTF8 = some text := by
  have hvalid : text.toUTF8.IsValidUTF8 := text.isValidUTF8
  rw [String.fromUTF8?, dif_pos hvalid]
  rfl

theorem read_put (hp : s.entry? p ≠ some .directory) (hq : s.resolve path = .ok q) (text : String) :
    (s.put p (.file text.toUTF8)).read path = if q = p then .ok text else s.read path := by
  simp only [read, resolve_put hp hq, entry?_put hp, hq]
  by_cases h : q = p
  · simp only [if_pos h, fromUTF8?_toUTF8]
  · simp only [if_neg h]

theorem write_put (hp : s.entry? p ≠ some .directory) (h : s.resolve path = .ok p) (old content : ByteArray) :
    (s.put p (.file old)).write path content = .ok ((s.put p (.file old)).put p (.file content)) := by
  simp only [write, resolve_put hp h, entry?_put hp, if_true]

theorem entry?_put_put (hp : s.entry? p ≠ some .directory) (old content : ByteArray) :
    entry? ((s.put p (.file old)).put p (.file content)) = entry? (s.put p (.file content)) := by
  have hold : entry? (s.put p (.file old)) p ≠ some .directory := by
    rw [entry?_put hp, if_pos rfl]
    nofun
  funext q
  rw [entry?_put hold, entry?_put hp, entry?_put hp]
  by_cases hq : q = p
  · rw [if_pos hq, if_pos hq]
  · rw [if_neg hq, if_neg hq, if_neg hq]

end

end Store

/-! ## Compiling a file -/

/-- What compiling a file in a store answers, and the store that it leaves. -/
def Store.compiled (s : Store) (input : String) : Except Failure Report × Store :=
  Id.run ((compileFile input : StateM Store (Except Failure Report)).run s)

theorem run_write (s : Store) (path text : String) :
    (Files.write path text : StateM Store (Except Fault Unit)).run s =
      match s.write path text.toUTF8 with
      | .error f => pure (.error f, s)
      | .ok s' => pure (.ok (), s') := by
  simp only [Files.write, StateT.run_bind, StateT.run_get, pure_bind]
  cases s.write path text.toUTF8 <;> rfl

theorem compiled_eq (s : Store) (input : String) : s.compiled input =
    match s.read input with
    | .error f => (.error (.unreadable input f), s)
    | .ok source =>
      match s.write (outputPath input) (compile source).text.toUTF8 with
      | .error f => (.error (.unwritable (outputPath input) f), s)
      | .ok s' => (.ok ⟨outputPath input, (compile source).verdict⟩, s') := by
  have hread : (Files.read input : StateM Store (Except Fault String)).run s = pure (s.read input, s) := rfl
  simp only [Store.compiled, compileFile, StateT.run_bind, hread, pure_bind]
  cases s.read input with
  | error f => rfl
  | ok source =>
    simp only [StateT.run_bind, run_write]
    cases s.write (outputPath input) (compile source).text.toUTF8 <;> rfl

/-- A file has been compiled: its source was in one place, and its listing is put in another or the same. -/
structure Written (s : Store) (input source : String) (home target : Place) : Prop where
  read : s.read input = .ok source
  resolve_input : s.resolve input = .ok home
  resolve_output : s.resolve (outputPath input) = .ok target
  home_ne : s.entry? home ≠ some .directory
  target_ne : s.entry? target ≠ some .directory
  compiled : s.compiled input = (.ok ⟨outputPath input, (compile source).verdict⟩,
    s.put target (.file (compile source).text.toUTF8))

theorem exists_written {s : Store} {input : String} {report : Report} (h : (s.compiled input).1 = .ok report) :
    ∃ source home target, Written s input source home target := by
  rw [compiled_eq] at h
  cases hr : s.read input with
  | error f => rw [hr] at h; cases h
  | ok source =>
    simp only [hr] at h
    cases hw : s.write (outputPath input) (compile source).text.toUTF8 with
    | error f => rw [hw] at h; cases h
    | ok s' =>
      obtain ⟨home, content, hi, hc⟩ := Store.exists_of_read hr
      obtain ⟨target, ho, ht, rfl⟩ := Store.exists_of_write hw
      refine ⟨source, home, target, hr, hi, ho, by simp [hc], ht, ?_⟩
      rw [compiled_eq, hr]
      simp only [hw]

theorem snd_compiled_of_error {s : Store} {input : String} {f : Failure} (h : (s.compiled input).1 = .error f) :
    (s.compiled input).2 = s := by
  rw [compiled_eq] at h ⊢
  cases hr : s.read input with
  | error f => rfl
  | ok source =>
    simp only [hr] at h ⊢
    cases hw : s.write (outputPath input) (compile source).text.toUTF8 with
    | error f => rfl
    | ok s' => rw [hw] at h; cases h

theorem entry?_compiled {s : Store} {input : String} {p : Place} (hp : s.resolve (outputPath input) ≠ .ok p) :
    Store.entry? (s.compiled input).2 p = s.entry? p := by
  cases h : (s.compiled input).1 with
  | error f => rw [snd_compiled_of_error h]
  | ok report =>
    obtain ⟨source, home, target, hw⟩ := exists_written h
    have hne : p ≠ target := by
      rintro rfl
      exact hp hw.resolve_output
    rw [hw.compiled, Store.entry?_put hw.target_ne, if_neg hne]

section
variable {s : Store} {input source : String} {home target : Place}

theorem Written.read_output (h : Written s input source home target) :
    (s.compiled input).2.read (outputPath input) = .ok (compile source).text := by
  rw [h.compiled, Store.read_put h.target_ne h.resolve_output, if_pos rfl]

theorem Written.read_input (h : Written s input source home target) : (s.compiled input).2.read input =
    .ok (if Path.extension? input.toList = some ['l', 'l'] then (compile source).text else source) := by
  have hplace := Store.output_eq_iff h.resolve_input h.home_ne h.resolve_output h.target_ne
  rw [h.compiled, Store.read_put h.target_ne h.resolve_input, h.read]
  by_cases hext : Path.extension? input.toList = some ['l', 'l']
  · rw [if_pos hext, if_pos (hplace.mpr hext).symm]
  · rw [if_neg hext, if_neg fun heq => hext (hplace.mp heq.symm)]

theorem Written.compiled_again (h : Written s input source home target) {again : String}
    (hr : (s.compiled input).2.read input = .ok again) :
    ((s.compiled input).2.compiled input).1 = .ok ⟨outputPath input, (compile again).verdict⟩ ∧
      Store.entry? ((s.compiled input).2.compiled input).2 =
        Store.entry? (s.put target (.file (compile again).text.toUTF8)) := by
  rw [h.compiled] at hr ⊢
  rw [compiled_eq, hr]
  simp only [Store.write_put h.target_ne h.resolve_output]
  exact ⟨trivial, Store.entry?_put_put h.target_ne _ _⟩

end

/-! ## Listings as sources -/

theorem unlines_cons (l : String) (ls : List String) : unlines (l :: ls) = unlines [l] ++ unlines ls := by
  simp [unlines, String.append_assoc]

/-- The first line of a listing is not a statement. -/
theorem compile_moduleText (code : List Instr) : compile (moduleText code) = ⟨errorModule 1, .rejected 1⟩ := by
  have htext : moduleText code = unlines ["; ModuleID = 'mylang2ir'"] ++
      unlines (moduleHead.tail ++ code.map Instr.text ++ moduleEnd) := unlines_cons _ _
  have htokens : dropComment (lex "; ModuleID = 'mylang2ir'") = [";", "ModuleID", "=", "'mylang2ir'"] := by
    decide +kernel
  have hform : Form.ofTokens [";", "ModuleID", "=", "'mylang2ir'"] = .error .statement := by decide
  have hlines : ∃ lines, readLines (moduleText code) = ⟨1, [";", "ModuleID", "=", "'mylang2ir'"]⟩ :: lines := by
    rw [htext, readLines_unlines_append (by simp), List.map_singleton, htokens]
    exact ⟨_, rfl⟩
  obtain ⟨lines, hlines⟩ := hlines
  have hsource : lowerSource (moduleText code) = .error ⟨1, .statement⟩ := by
    simp only [lowerSource, lowerProgram, hlines, lowerLines_cons, hform]
    rfl
  rw [compile, hsource]

theorem compile_text (source : String) : compile (compile source).text = ⟨errorModule 1, .rejected 1⟩ := by
  unfold compile
  cases lowerSource source with
  | ok code => exact compile_moduleText code
  | error e => exact compile_moduleText [.printError e.line]

theorem text_eq_source_iff (source : String) : (compile source).text = source ↔ source = errorModule 1 := by
  constructor
  · intro h
    have hcompile := compile_text source
    rw [h] at hcompile
    rw [← h, hcompile]
  · rintro rfl
    rw [errorModule, compile_moduleText]
    rfl

/-! ## The source -/

section
variable {s : Store} {input source : String} {home target : Place}

theorem Written.read_input_iff (h : Written s input source home target) :
    (s.compiled input).2.read input = .ok source ↔
      Path.extension? input.toList ≠ some ['l', 'l'] ∨ source = errorModule 1 := by
  rw [h.read_input, Except.ok.injEq, ← text_eq_source_iff]
  by_cases hext : Path.extension? input.toList = some ['l', 'l']
  · simp [hext]
  · simp [hext]

/-- With the extension of a listing, the second run reads the listing that the first one has written. -/
theorem Written.same_again_iff (h : Written s input source home target) :
    ((s.compiled input).2.compiled input).1 = (s.compiled input).1 ∧
        Store.entry? ((s.compiled input).2.compiled input).2 = Store.entry? (s.compiled input).2 ↔
      Path.extension? input.toList ≠ some ['l', 'l'] ∨ (compile source).verdict = .rejected 1 := by
  obtain ⟨hresult, hentries⟩ := h.compiled_again h.read_input
  rw [hresult, hentries, h.compiled]
  by_cases hext : Path.extension? input.toList = some ['l', 'l']
  · have hno : ¬Path.extension? input.toList ≠ some ['l', 'l'] := fun hne => hne hext
    rw [or_iff_right hno, if_pos hext, compile_text]
    constructor
    · rintro ⟨hsame, _⟩
      injection hsame with hreport
      exact (congrArg Report.verdict hreport).symm
    · intro hverdict
      rw [hverdict, (text_eq_errorModule_iff 1).mpr hverdict]
      exact ⟨rfl, rfl⟩
  · rw [if_neg hext]
    exact iff_of_true ⟨rfl, rfl⟩ (.inl hext)

end

/-- Compiling a file changes at most the entry in the place of the listing, and nothing where the source
cannot be read. If it comes to a report, the listing is found where the report says. The source is as it
was, unless it has the extension of a listing: then the listing has taken its place, and nothing is lost
only if the source is a listing that compiling does not change. A second run comes to the same report and
changes nothing, unless the source has the extension of a listing and its first line is not blamed, as it
is in every listing. -/
theorem compileFile_frames (s : Store) (input : String) :
    let after := (s.compiled input).2
    (∀ p, s.resolve (outputPath input) ≠ .ok p → after.entry? p = s.entry? p) ∧
    (∀ fault, s.read input = .error fault → s.compiled input = (.error (.unreadable input fault), s)) ∧
    ∀ report, (s.compiled input).1 = .ok report → ∃ source, s.read input = .ok source ∧
      report = ⟨outputPath input, (compile source).verdict⟩ ∧
      after.read report.output = .ok (compile source).text ∧
      (after.read input = .ok source ↔
        Path.extension? input.toList ≠ some ['l', 'l'] ∨ source = errorModule 1) ∧
      ((after.compiled input).1 = .ok report ∧ Store.entry? (after.compiled input).2 = after.entry? ↔
        Path.extension? input.toList ≠ some ['l', 'l'] ∨ (compile source).verdict = .rejected 1) := by
  intro after
  refine ⟨fun p => entry?_compiled, fun fault hf => by rw [compiled_eq, hf], fun report h => ?_⟩
  obtain ⟨source, home, target, hw⟩ := exists_written h
  have hreport : report = ⟨outputPath input, (compile source).verdict⟩ := by
    rw [hw.compiled] at h
    exact (Except.ok.inj h).symm
  refine ⟨source, hw.read, hreport, ?_, hw.read_input_iff, ?_⟩
  · rw [hreport]
    exact hw.read_output
  · rw [← h]
    exact hw.same_again_iff

/-- A source in a directory, with its listing beside it. -/
theorem compileFile_frames_beside :
    let s : Store := ⟨[(⟨.above 0, ["d"]⟩, .directory), (⟨.above 0, ["n.my", "d"]⟩, .file "print(2)".toUTF8)]⟩
    let after := (s.compiled "d/n.my").2
    (s.compiled "d/n.my").1 = .ok ⟨"d/n.ll", .accepted⟩ ∧ after.read "d/n.my" = .ok "print(2)" ∧
      (after.compiled "d/n.my").1 = .ok ⟨"d/n.ll", .accepted⟩ := by
  intro s after
  have hresult : (s.compiled "d/n.my").1 = .ok ⟨"d/n.ll", .accepted⟩ := by decide +kernel
  have hread : s.read "d/n.my" = .ok "print(2)" := by decide +kernel
  have hext : Path.extension? "d/n.my".toList ≠ some ['l', 'l'] := by decide +kernel
  obtain ⟨_, _, hok⟩ := compileFile_frames s "d/n.my"
  obtain ⟨source, hsource, _, _, hkept, hagain⟩ := hok _ hresult
  obtain rfl : source = "print(2)" := Except.ok.inj (hsource.symm.trans hread)
  exact ⟨hresult, hkept.mpr (.inl hext), (hagain.mpr (.inl hext)).1⟩

/-- A source with the extension of a listing is lost, and a second run rejects what has taken its place. -/
theorem compileFile_replaces_source :
    let s : Store := ⟨[(⟨.above 0, ["p.ll"]⟩, .file "x = 1".toUTF8)]⟩
    let after := (s.compiled "p.ll").2
    s.read "p.ll" = .ok "x = 1" ∧ (s.compiled "p.ll").1 = .ok ⟨"p.ll", .accepted⟩ ∧
      after.read "p.ll" ≠ .ok "x = 1" ∧ (after.compiled "p.ll").1 = .ok ⟨"p.ll", .rejected 1⟩ := by
  intro s after
  have hresult : (s.compiled "p.ll").1 = .ok ⟨"p.ll", .accepted⟩ := by decide +kernel
  have hread : s.read "p.ll" = .ok "x = 1" := by decide +kernel
  have hext : Path.extension? "p.ll".toList = some ['l', 'l'] := by decide +kernel
  have houtput : outputPath "p.ll" = "p.ll" := by decide +kernel
  obtain ⟨source, home, target, hw⟩ := exists_written hresult
  obtain rfl : source = "x = 1" := Except.ok.inj (hw.read.symm.trans hread)
  have hlost : ¬(Path.extension? "p.ll".toList ≠ some ['l', 'l'] ∨ "x = 1" = errorModule 1) := by
    rw [not_or]
    exact ⟨fun hne => hne hext, by decide +kernel⟩
  obtain ⟨hagain, _⟩ := hw.compiled_again hw.read_input
  rw [if_pos hext, compile_text, houtput] at hagain
  exact ⟨hread, hresult, fun hkept => hlost (hw.read_input_iff.mp hkept), hagain⟩

end SlotCompiler
