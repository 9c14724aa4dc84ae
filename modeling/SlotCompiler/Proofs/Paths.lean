import Mathlib.Data.List.Induction
import SlotCompiler.File.Path

/-!
# Names at the end of a path

A path is a front part, which is empty or ends with a separator, and a name behind it. Where the name is
that of a file, another extension changes the name and leaves the front part alone. One name is left
without an extension: two dots and the old extension, of which the dots remain.
-/

namespace SlotCompiler

namespace Path

def IsFront (front : List Char) : Prop := front = [] ∨ ∃ dir, front = dir ++ ['/']

/-- The name of a file behind a front part. -/
structure IsEntry (front name : List Char) : Prop where
  front : IsFront front
  plain : '/' ∉ name
  file : isFileName name

theorem exists_front (path : List Char) : ∃ front name, path = front ++ name ∧ IsFront front ∧ '/' ∉ name := by
  induction path using List.reverseRecOn with
  | nil => exact ⟨[], [], rfl, .inl rfl, by simp⟩
  | append_singleton path c ih =>
    by_cases hc : c = '/'
    · subst hc
      exact ⟨path ++ ['/'], [], by simp, .inr ⟨path, rfl⟩, by simp⟩
    · obtain ⟨front, name, rfl, hf, hn⟩ := ih
      exact ⟨front, name ++ [c], by simp, hf, by simp [hn, Ne.symm hc]⟩

/-! ## Components -/

section
variable {front name : List Char}

theorem components_of_plain (h : '/' ∉ name) : components name = [name] := by
  have key : splitComponents name = (name, []) := by
    induction name with
    | nil => rfl
    | cons c cs ih =>
      rw [List.mem_cons, not_or] at h
      rw [splitComponents, ih h.2]
      simp [Ne.symm h.1]
  rw [components, key]

theorem splitComponents_append (dir path : List Char) : splitComponents (dir ++ '/' :: path) =
    ((splitComponents dir).1, (splitComponents dir).2 ++ components path) := by
  induction dir with
  | nil => rfl
  | cons c dir ih =>
    rw [List.cons_append, splitComponents, splitComponents, ih]
    by_cases hc : c = '/'
    · simp [hc]
    · simp [hc]

theorem components_append_separator (dir path : List Char) :
    components (dir ++ '/' :: path) = components dir ++ components path := by
  rw [components, splitComponents_append]
  rfl

theorem components_append (hf : IsFront front) (hn : '/' ∉ name) :
    components (front ++ name) = (components front).dropLast ++ [name] := by
  obtain rfl | ⟨dir, rfl⟩ := hf
  · rw [List.nil_append, components_of_plain hn]
    rfl
  · have hdir : components (dir ++ ['/']) = components dir ++ [[]] := components_append_separator dir []
    rw [List.append_assoc, List.singleton_append, components_append_separator, components_of_plain hn, hdir,
      List.dropLast_concat]

end

/-! ## The last name -/

section
variable {front name : List Char} (hf : IsFront front) (hn : '/' ∉ name) (hne : name ≠ []) (hd : name ≠ ['.'])

include hn hne hd in
theorem trim_reverse : trim (front ++ name).reverse = (front ++ name).reverse := by
  obtain ⟨init, c, rfl⟩ : ∃ init c, name = init ++ [c] :=
    ⟨_, _, (List.dropLast_concat_getLast hne).symm⟩
  rw [List.mem_append, List.mem_singleton, not_or] at hn
  rw [trim]
  · -- A separator at the end would belong to the name.
    intro cs h
    simp only [List.reverse_append, List.reverse_singleton, List.cons_append, List.cons.injEq] at h
    exact hn.2 h.1.symm
  · -- So would one before a dot at the end, unless the dot is the name.
    intro cs h
    simp only [List.reverse_append, List.reverse_singleton, List.cons_append, List.cons.injEq] at h
    obtain ⟨rfl, h⟩ := h
    cases hi : init.reverse with
    | nil => exact hd (by rw [List.reverse_eq_nil_iff.mp hi]; rfl)
    | cons c' cs' =>
      rw [hi] at h
      cases h
      exact hn.1 (List.mem_reverse.mp (by rw [hi]; exact List.mem_cons_self))

include hn in
theorem ne_separator_of_mem_reverse : ∀ c ∈ name.reverse, decide (c ≠ '/') = true := by
  intro c hc
  refine decide_eq_true fun h => hn ?_
  rw [← h]
  exact List.mem_reverse.mp hc

include hf hn hne hd

theorem lastName_append : lastName (front ++ name) = name.reverse := by
  rw [lastName, trim_reverse hn hne hd, List.reverse_append,
    List.takeWhile_append_of_pos (ne_separator_of_mem_reverse hn)]
  obtain rfl | ⟨dir, rfl⟩ := hf <;> simp

theorem parent_append : parent (front ++ name) = front := by
  rw [parent, trim_reverse hn hne hd, List.reverse_append,
    List.dropWhile_append_of_pos (ne_separator_of_mem_reverse hn)]
  obtain rfl | ⟨dir, rfl⟩ := hf <;> simp

end

/-! ## Extensions -/

theorem isFileName_iff {name : List Char} : isFileName name ↔ name ≠ [] ∧ name ≠ ['.'] ∧ name ≠ ['.', '.'] := by
  simp [isFileName, and_assoc]

theorem isFileName_reverse (name : List Char) : isFileName name.reverse = isFileName name := by
  rw [Bool.eq_iff_iff, isFileName_iff, isFileName_iff]
  simp [List.reverse_eq_iff]

/-- What the cut of an extension finds: no dot but at the front, or the last one. -/
theorem cutExtension_cases (name : List Char) : cutExtension name = (none, name) ∨
    ∃ old c stem, name = old ++ '.' :: c :: stem ∧ cutExtension name = (some old, c :: stem) := by
  unfold cutExtension
  split
  · rename_i dot c stem hdrop
    right
    have hdot : dot = '.' := by
      have hne : name.dropWhile (· ≠ '.') ≠ [] := by
        rw [hdrop]
        exact List.cons_ne_nil _ _
      have hhead := List.head_dropWhile_not _ hne
      simp only [hdrop, List.head_cons] at hhead
      simpa using hhead
    subst hdot
    refine ⟨_, c, stem, ?_, rfl⟩
    rw [← hdrop, List.takeWhile_append_dropWhile]
  · exact .inl rfl

section
variable {front name : List Char} (ext : List Char)

theorem IsEntry.extension?_eq (h : IsEntry front name) :
    extension? (front ++ name) = (cutExtension name.reverse).1 := by
  obtain ⟨hne, hd, _⟩ := isFileName_iff.mp h.file
  rw [extension?, lastName_append h.front h.plain hne hd, isFileName_reverse, if_pos h.file]

theorem IsEntry.setExtension_eq (h : IsEntry front name) :
    setExtension ext (front ++ name) = front ++ (cutExtension name.reverse).2.reverse ++ '.' :: ext := by
  obtain ⟨hne, hd, _⟩ := isFileName_iff.mp h.file
  rw [setExtension, lastName_append h.front h.plain hne hd, parent_append h.front h.plain hne hd,
    isFileName_reverse, if_pos h.file]

theorem setExtension_above (hf : IsFront front) : setExtension ext (front ++ ['.', '.']) = front ++ ['.', '.'] := by
  rw [setExtension, lastName_append hf (by decide) (by decide) (by decide)]
  rfl

/-- A new extension stands behind the name, or in the place of the old one. -/
theorem IsEntry.withExtension_cases (h : IsEntry front name) :
    extension? (front ++ name) = none ∧ withExtension ext (front ++ name) = front ++ (name ++ '.' :: ext) ∨
    ∃ stem old, stem ≠ [] ∧ name = stem ++ '.' :: old ∧ extension? (front ++ name) = some old.reverse ∧
      withExtension ext (front ++ name) = front ++ if stem = ['.'] then ['.', '.'] else stem ++ '.' :: ext := by
  have hext := h.extension?_eq
  rcases cutExtension_cases name.reverse with hcut | ⟨old, c, rest, hname, hcut⟩
  · left
    rw [hcut] at hext
    refine ⟨hext, ?_⟩
    rw [withExtension, hext]
    simp [h.setExtension_eq, hcut]
  · right
    rw [hcut] at hext
    have hsplit : name = (c :: rest).reverse ++ '.' :: old.reverse := by
      rw [← List.reverse_reverse name, hname]
      simp
    have hstem : (c :: rest).reverse ≠ [] := by simp
    generalize hs : (c :: rest).reverse = stem at hsplit hstem
    refine ⟨stem, old.reverse, hstem, hsplit, by rw [hext, List.reverse_reverse], ?_⟩
    have htake : (front ++ name).take ((front ++ name).length - old.length) = front ++ (stem ++ ['.']) := by
      have hpath : front ++ name = (front ++ (stem ++ ['.'])) ++ old.reverse := by simp [hsplit]
      rw [hpath, List.take_left' (by simp; omega)]
    rw [withExtension, hext]
    simp only [htake]
    split
    · rename_i hdot
      rw [hdot]
      exact setExtension_above ext h.front
    · rename_i hdot
      have hplain : '/' ∉ stem := fun hm => h.plain (by rw [hsplit]; exact List.mem_append_left _ hm)
      have hentry : IsEntry front (stem ++ ['.']) := by
        refine ⟨h.front, by simp [hplain], isFileName_iff.mpr ⟨by simp, fun hd => ?_, fun hd => ?_⟩⟩
        · exact hstem (by simpa using hd)
        · have hdots : stem ++ ['.'] = ['.'] ++ ['.'] := hd
          exact hdot (List.append_cancel_right hdots)
      have hcut : cutExtension (stem ++ ['.']).reverse = (some [], c :: rest) := by
        rw [← hs]
        simp [cutExtension]
      rw [hentry.setExtension_eq, hcut, hs, List.append_assoc]

end

theorem isFileName_extended (stem : List Char) : isFileName (stem ++ ['.', 'l', 'l']) := by
  refine isFileName_iff.mpr ⟨by simp, fun h => ?_, fun h => ?_⟩
  all_goals
    have hlast := congrArg List.getLast? h
    simp at hlast

/-- The listing of a source is named in the front part of the source, unless the name cannot have the
extension. It has the name of the source just if this has the extension already. -/
theorem IsEntry.exists_output {front name : List Char} (h : IsEntry front name) : ∃ out,
    outputPath (String.ofList (front ++ name)) = String.ofList (front ++ out) ∧
      (out = ['.', '.'] ∨
        IsEntry front out ∧ (out = name ↔ extension? (front ++ name) = some ['l', 'l'])) := by
  have hpath : outputPath (String.ofList (front ++ name)) =
      String.ofList (withExtension ['l', 'l'] (front ++ name)) := by
    rw [outputPath, String.toList_ofList]
  rw [hpath]
  rcases h.withExtension_cases ['l', 'l'] with ⟨hext, hout⟩ | ⟨stem, old, _, hname, hext, hout⟩
  · refine ⟨_, congrArg _ hout, .inr ⟨⟨h.front, by simp [h.plain], isFileName_extended name⟩, ?_⟩⟩
    simp [hext]
  · refine ⟨_, congrArg _ hout, ?_⟩
    split
    · exact .inl rfl
    · have hstem : '/' ∉ stem := fun hm => h.plain (by rw [hname]; exact List.mem_append_left _ hm)
      refine .inr ⟨⟨h.front, by simp [hstem], isFileName_extended stem⟩, ?_⟩
      rw [hext, hname, List.append_cancel_left_eq, Option.some.injEq, List.reverse_eq_iff]
      simp [eq_comm]

end Path

end SlotCompiler
