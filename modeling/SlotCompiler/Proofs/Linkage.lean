import SlotCompiler.Proofs.Growth

/-!
# How the blocks of a routine are linked

A routine is a sequence of basic blocks: a label opens a block, a branch or a jump ends it, and
neither stands anywhere else. `linked_of_lowerSource`: every label that is named is defined once, is
named as often as its construct prescribes, and control goes back only where a loop ends.
-/

namespace SlotCompiler

/-- The labels that control may go to after the instruction. -/
def Instr.targets : Instr → List Label
  | .branch _ yes no => [yes, no]
  | .jump target => [target]
  | _ => []

def Instr.isLabel : Instr → Bool
  | .label _ => true
  | _ => false

def targets (code : List Instr) : List Label := code.flatMap Instr.targets

@[simp] theorem targets_nil : targets [] = [] := rfl

@[simp] theorem targets_cons (i : Instr) (code : List Instr) :
    targets (i :: code) = i.targets ++ targets code := rfl

@[simp] theorem targets_append (cs ds : List Instr) : targets (cs ++ ds) = targets cs ++ targets ds := by
  simp [targets]

def Instr.label? : Instr → Option Label
  | .label l => some l
  | _ => none

theorem count_filterMap_label? (code : List Instr) (l : Label) :
    (code.filterMap Instr.label?).count l = code.count (.label l) := by
  induction code with
  | nil => rfl
  | cons i code ih => cases i <;> simp [List.filterMap_cons, Instr.label?, List.count_cons, ih]

/-- How often the construct of a label names it. -/
def Label.uses : Label → Nat
  | .ifBody _ | .whileBody _ | .whileEnd _ | .chooseArm _ _ => 1
  | .ifEnd _ | .whileTest _ => 2
  | .chooseEnd _ => 3

/-- The basic blocks of a routine fit together. -/
structure Linked (code : List Instr) : Prop where
  first (l : Label) : code[0]? ≠ some (.label l)
  last (i : Instr) : code.getLast? = some i → i.targets = []
  before_label (p : Nat) (l : Label) : code[p + 1]? = some (.label l) →
    ∃ i : Instr, code[p]? = some i ∧ i.targets ≠ []
  label_after (p : Nat) (i : Instr) : code[p]? = some i → i.targets ≠ [] →
    ∃ l : Label, code[p + 1]? = some (.label l)
  defined : ∀ l ∈ targets code, code.count (.label l) = 1
  named (l : Label) : .label l ∈ code → (targets code).count l = l.uses
  backward (p : Nat) (i : Instr) : code[p]? = some i →
    ((∃ l ∈ i.targets, ∃ q < p, code[q]? = some (.label l)) ↔
      ∃ id : Nat, i = .jump (.whileTest id) ∧ code[p + 1]? = some (.label (.whileEnd id)))
  loops (id : Nat) : .label (.whileTest id) ∈ code →
    ∃ p : Nat, code[p]? = some (.jump (.whileTest id)) ∧ code[p + 1]? = some (.label (.whileEnd id)) ∧
      ∀ q : Nat, code[q]? = some (.jump (.whileTest id)) →
        code[q + 1]? = some (.label (.whileEnd id)) → q = p

/-! ## Blocks -/

/-- A label stands just behind a branch or a jump; `ended` says that the code before ends in one. -/
def Blocks (ended : Bool) : List Instr → Prop
  | [] => ended = false
  | i :: is => i.isLabel = ended ∧ Blocks (i.targets ≠ []) is

theorem Blocks.append {ended : Bool} {cs ds : List Instr} (hc : Blocks ended cs)
    (hd : Blocks false ds) : Blocks ended (cs ++ ds) := by
  induction cs generalizing ended with
  | nil => cases hc; exact hd
  | cons i cs ih => exact ⟨hc.1, ih hc.2⟩

theorem Blocks.first_eq {ended : Bool} {cs : List Instr} {l : Label} (h : Blocks ended cs)
    (hl : cs[0]? = some (.label l)) : ended = true := by
  cases cs with
  | nil => cases hl
  | cons i cs => cases hl; exact h.1.symm

theorem Blocks.before_label {ended : Bool} {cs : List Instr} (h : Blocks ended cs) {p : Nat} {l : Label}
    (hl : cs[p + 1]? = some (.label l)) : ∃ i, cs[p]? = some i ∧ i.targets ≠ [] := by
  induction cs generalizing ended p with
  | nil => cases hl
  | cons i cs ih =>
    cases p with
    | zero => exact ⟨i, rfl, by simpa using h.2.first_eq hl⟩
    | succ p => exact ih h.2 hl

theorem Blocks.label_first {cs : List Instr} (h : Blocks true cs) : ∃ l, cs[0]? = some (.label l) := by
  cases cs with
  | nil => cases h
  | cons i cs =>
    cases i with
    | label l => exact ⟨l, rfl⟩
    | _ => cases h.1

theorem Blocks.label_after {ended : Bool} {cs : List Instr} (h : Blocks ended cs) {p : Nat} {i : Instr}
    (hp : cs[p]? = some i) (hi : i.targets ≠ []) : ∃ l, cs[p + 1]? = some (.label l) := by
  induction cs generalizing ended p with
  | nil => cases hp
  | cons j cs ih =>
    cases p with
    | zero =>
      cases hp
      have := h.2
      rw [decide_eq_true hi] at this
      exact this.label_first
    | succ p => exact ih h.2 hp

/-! ## Backward jumps -/

/-- Behind `before`, only the ends of loops name a label that is already defined. -/
def Forward (before : List Instr) : List Instr → Prop
  | [] => True
  | i :: is =>
    (∀ l ∈ i.targets, .label l ∈ before →
      ∃ id, i = .jump (.whileTest id) ∧ is[0]? = some (.label (.whileEnd id))) ∧
    Forward (before ++ [i]) is

theorem Forward.append {before cs ds : List Instr} (hc : Forward before cs)
    (hd : Forward (before ++ cs) ds) : Forward before (cs ++ ds) := by
  induction cs generalizing before with
  | nil => simpa using hd
  | cons i cs ih =>
    refine ⟨fun l hl hb => ?_, ih hc.2 (by simpa using hd)⟩
    obtain ⟨id, hi, hs⟩ := hc.1 l hl hb
    cases cs with
    | nil => cases hs
    | cons j cs => exact ⟨id, hi, hs⟩

theorem Forward.of_disjoint {before cs ds : List Instr} (h : Forward ds cs)
    (hb : ∀ l ∈ targets cs, .label l ∉ before) : Forward (before ++ ds) cs := by
  induction cs generalizing ds with
  | nil => trivial
  | cons i cs ih =>
    refine ⟨fun l hl hm => ?_, ?_⟩
    · rcases List.mem_append.mp hm with hm | hm
      · exact absurd hm (hb l (by simp [hl]))
      · exact h.1 l hl hm
    · rw [List.append_assoc]
      exact ih h.2 fun l hl => hb l (by simp [hl])

theorem Forward.backward {before cs : List Instr} (h : Forward before cs) {p : Nat} {i : Instr}
    {l : Label} (hp : cs[p]? = some i) (hl : l ∈ i.targets) (hb : .label l ∈ before ++ cs.take p) :
    ∃ id, i = .jump (.whileTest id) ∧ cs[p + 1]? = some (.label (.whileEnd id)) := by
  induction cs generalizing before p with
  | nil => cases hp
  | cons j cs ih =>
    cases p with
    | zero => cases hp; exact h.1 l hl (by simpa using hb)
    | succ p => exact ih h.2 hp (by simpa using hb)

/-! ## Labels -/

/-- The label belongs to an id that was handed out between the two drafts. -/
def Label.Issued (d d' : Draft) : Label → Prop
  | .ifBody id | .ifEnd id => d.ifs ≤ id ∧ id < d'.ifs
  | .whileTest id | .whileBody id | .whileEnd id => d.whiles ≤ id ∧ id < d'.whiles
  | .chooseArm arm id => arm < 4 ∧ d.chooses ≤ id ∧ id < d'.chooses
  | .chooseEnd id => d.chooses ≤ id ∧ id < d'.chooses

instance (d d' : Draft) : DecidablePred (Label.Issued d d') := fun l => by
  cases l <;> exact inferInstanceAs (Decidable (_ ∧ _))

/-- No counter of the first draft is ahead of the second. -/
structure Draft.Before (d d' : Draft) : Prop where
  ifs : d.ifs ≤ d'.ifs
  whiles : d.whiles ≤ d'.whiles
  chooses : d.chooses ≤ d'.chooses

theorem Draft.Before.refl (d : Draft) : d.Before d := ⟨Nat.le_refl _, Nat.le_refl _, Nat.le_refl _⟩

theorem Draft.Before.trans {d d₁ d₂ : Draft} (h : d.Before d₁) (h' : d₁.Before d₂) : d.Before d₂ :=
  ⟨Nat.le_trans h.ifs h'.ifs, Nat.le_trans h.whiles h'.whiles, Nat.le_trans h.chooses h'.chooses⟩

namespace Label
variable {d d₁ d₂ d₃ : Draft} {l : Label}

theorem issued_iff (h : d.Before d₁) (h' : d₁.Before d₂) :
    l.Issued d d₂ ↔ l.Issued d d₁ ∨ l.Issued d₁ d₂ := by
  obtain ⟨_, _, _⟩ := h
  obtain ⟨_, _, _⟩ := h'
  cases l <;> simp only [Issued] <;> omega

theorem Issued.not_issued (h : l.Issued d d₁) (h' : d₁.Before d₂) : ¬l.Issued d₂ d₃ := by
  obtain ⟨_, _, _⟩ := h'
  cases l <;> simp only [Issued] at h ⊢ <;> omega

theorem ite_issued_add (h : d.Before d₁) (h' : d₁.Before d₂) (n : Nat) :
    (if l.Issued d d₁ then n else 0) + (if l.Issued d₁ d₂ then n else 0) =
      if l.Issued d d₂ then n else 0 := by
  by_cases h₁ : l.Issued d d₁
  · rw [if_pos h₁, if_neg (h₁.not_issued (.refl _)), if_pos ((issued_iff h h').mpr (.inl h₁)), Nat.add_zero]
  · by_cases h₂ : l.Issued d₁ d₂
    · rw [if_neg h₁, if_pos h₂, if_pos ((issued_iff h h').mpr (.inr h₂)), Nat.zero_add]
    · rw [if_neg h₁, if_neg h₂, if_neg fun hi => ((issued_iff h h').mp hi).elim h₁ h₂]

end Label

/-! ## Fragments -/

/-- Code that links up by itself, with the labels handed out between the two drafts. -/
structure Fragment (d : Draft) (cs : List Instr) (d' : Draft) : Prop where
  before : d.Before d'
  blocks : Blocks false cs
  forward : Forward [] cs
  defs (l : Label) : cs.count (.label l) = if l.Issued d d' then 1 else 0
  refs (l : Label) : (targets cs).count l = if l.Issued d d' then l.uses else 0
  loops (id : Nat) : d.whiles ≤ id → id < d'.whiles → ∃ xs ys : List Instr,
    cs = xs ++ .jump (.whileTest id) :: .label (.whileEnd id) :: ys ∧ .label (.whileTest id) ∈ xs

namespace Fragment
variable {d d₁ d₂ : Draft} {cs ds : List Instr} {l : Label}

theorem mem_iff (h : Fragment d cs d₁) : .label l ∈ cs ↔ l.Issued d d₁ := by
  rw [← List.count_pos_iff, h.defs]
  split <;> simp_all

theorem issued_of_mem_targets (h : Fragment d cs d₁) (hl : l ∈ targets cs) : l.Issued d d₁ := by
  have hc := List.count_pos_iff.mpr hl
  rw [h.refs] at hc
  by_cases hi : l.Issued d d₁
  · exact hi
  · rw [if_neg hi] at hc; exact absurd hc (Nat.lt_irrefl 0)

theorem append (h : Fragment d cs d₁) (h' : Fragment d₁ ds d₂) : Fragment d (cs ++ ds) d₂ where
  before := h.before.trans h'.before
  blocks := h.blocks.append h'.blocks
  forward := by
    refine h.forward.append ?_
    rw [List.nil_append, ← List.append_nil cs]
    refine h'.forward.of_disjoint fun l hl hm => ?_
    exact (h.mem_iff.mp hm).not_issued (.refl _) (h'.issued_of_mem_targets hl)
  defs l := by
    rw [List.count_append, h.defs, h'.defs, Label.ite_issued_add h.before h'.before]
  refs l := by
    rw [targets_append, List.count_append, h.refs, h'.refs, Label.ite_issued_add h.before h'.before]
  loops id hlo hhi := by
    by_cases hid : id < d₁.whiles
    · obtain ⟨xs, ys, rfl, hm⟩ := h.loops id hlo hid
      exact ⟨xs, ys ++ ds, by simp, hm⟩
    · obtain ⟨xs, ys, rfl, hm⟩ := h'.loops id (Nat.le_of_not_lt hid) hhi
      exact ⟨cs ++ xs, ys, by simp, List.mem_append_right _ hm⟩

end Fragment

def Draft.SameIds (d d' : Draft) : Prop :=
  d'.ifs = d.ifs ∧ d'.whiles = d.whiles ∧ d'.chooses = d.chooses

theorem Draft.SameIds.before {d d' : Draft} (h : d.SameIds d') : d.Before d' :=
  ⟨Nat.le_of_eq h.1.symm, Nat.le_of_eq h.2.1.symm, Nat.le_of_eq h.2.2.symm⟩

theorem Draft.Before.congr {d d' e : Draft} (h : d.Before d') (he : e.SameIds d) : e.Before d' :=
  he.before.trans h

theorem Label.not_issued_of_sameIds {d d' : Draft} (h : d.SameIds d') (l : Label) :
    ¬l.Issued d d' := by
  obtain ⟨_, _, _⟩ := h
  cases l <;> simp only [Issued] <;> omega

theorem Fragment.plain {d d' : Draft} (h : d.SameIds d') {cs : List Instr}
    (hc : ∀ i ∈ cs, i.targets = [] ∧ i.isLabel = false) : Fragment d cs d' := by
  have hl : ∀ l, .label l ∉ cs := fun l hl => by simpa [Instr.isLabel] using (hc _ hl).2
  have ht : targets cs = [] := by
    simp only [targets, List.flatMap_eq_nil_iff]
    exact fun i hi => (hc i hi).1
  refine ⟨h.before, ?_, ?_, ?_, ?_, ?_⟩
  · clear hl ht
    induction cs with
    | nil => rfl
    | cons i cs ih =>
      obtain ⟨h₁, h₂⟩ := hc i (.head _)
      refine ⟨h₂, ?_⟩
      simpa [h₁] using ih fun j hj => hc j (.tail _ hj)
  · generalize ([] : List Instr) = before
    clear hl ht
    induction cs generalizing before with
    | nil => trivial
    | cons i cs ih =>
      obtain ⟨h₁, _⟩ := hc i (.head _)
      exact ⟨by simp [h₁], ih (fun j hj => hc j (.tail _ hj)) _⟩
  · intro l
    rw [if_neg (Label.not_issued_of_sameIds h l)]
    exact List.count_eq_zero.mpr (hl l)
  · intro l
    rw [if_neg (Label.not_issued_of_sameIds h l), ht, List.count_nil]
  · intro id hlo hhi
    rw [h.2.1] at hhi
    omega

theorem Fragment.congr {d d' e e' : Draft} {cs : List Instr} (h : Fragment d cs d')
    (hd : e.SameIds d) (hd' : d'.SameIds e') : Fragment e cs e' := by
  have h₁ : Fragment e [] d := .plain hd (by simp)
  have h₂ : Fragment d' [] e' := .plain hd' (by simp)
  simpa using (h₁.append h).append h₂

theorem Fragment.select (d : Draft) (dest : Nat) (s z p n : Operand) :
    Fragment d (selectCode (.temp dest) d.chooses (d.temps + 1) (d.temps + 2) (d.temps + 3) s z p n)
      (d.select dest s z p n) where
  before := ⟨Nat.le_refl _, Nat.le_refl _, Nat.le_succ _⟩
  blocks := by simp [selectCode, Blocks, Instr.isLabel, Instr.targets]
  forward := by simp [selectCode, Forward, Instr.targets]
  defs l := by
    have hlabels : (selectCode (.temp dest) d.chooses (d.temps + 1) (d.temps + 2) (d.temps + 3) s z p
        n).filterMap Instr.label? = [.chooseArm 0 d.chooses, .chooseArm 1 d.chooses,
          .chooseArm 2 d.chooses, .chooseArm 3 d.chooses, .chooseEnd d.chooses] := rfl
    rw [← count_filterMap_label?, hlabels]
    cases l <;> simp [Label.Issued, Draft.select, List.count_cons] <;> grind
  refs l := by
    have htargets : targets (selectCode (.temp dest) d.chooses (d.temps + 1) (d.temps + 2) (d.temps + 3) s
        z p n) = [.chooseArm 0 d.chooses, .chooseArm 1 d.chooses, .chooseEnd d.chooses,
          .chooseArm 2 d.chooses, .chooseArm 3 d.chooses, .chooseEnd d.chooses,
          .chooseEnd d.chooses] := rfl
    rw [htargets]
    cases l <;> simp [Label.Issued, Draft.select, List.count_cons, Label.uses] <;> grind
  loops id hlo hhi := by
    simp only [Draft.select, Draft.push_whiles] at hhi
    omega

theorem Evaluates.fragment {names : List String} {d d' : Draft} {ps : List Nat} {cs : List Instr}
    (h : Evaluates names d ps cs d') : Fragment d cs d' := by
  induction h with
  | start => exact .plain ⟨rfl, rfl, rfl⟩ (by simp)
  | grant _ _ _ _ ih =>
    refine ih.append (.plain ?_ ?_)
    · exact ⟨rfl, rfl, rfl⟩
    · simp [Instr.targets, Instr.isLabel]
  | load _ _ ih =>
    refine ih.append (.plain ?_ ?_)
    · exact ⟨rfl, rfl, rfl⟩
    · simp [Instr.targets, Instr.isLabel]
  | arith _ _ _ ih =>
    refine ih.append (.plain ?_ ?_)
    · exact ⟨rfl, rfl, rfl⟩
    · simp [Instr.targets, Instr.isLabel]
  | @reserve _ cs d' _ ih =>
    have hd : d'.SameIds d'.takeTemp := ⟨rfl, rfl, rfl⟩
    rw [← List.append_nil cs]
    exact ih.append (.plain hd (by simp))
  | select _ _ _ _ _ ih => exact ih.append (.select ..)

namespace Control
variable (c : Control) (d : Draft) (test : Nat) (v : Operand) (l : Label)

theorem before_claim : d.Before (c.claim d) := by
  cases c <;> exact ⟨by simp [claim], by simp [claim], by simp [claim]⟩

theorem count_label :
    (c.enter (c.nextId d)).count (.label l) + (c.guard (c.nextId d) test v).count (.label l) +
      (c.close (c.nextId d)).count (.label l) = if l.Issued d (c.claim d) then 1 else 0 := by
  cases c <;> cases l <;>
    simp [enter, guard, close, body, back, exit, nextId, claim, Label.Issued, List.count_cons] <;>
    grind

theorem count_targets :
    (targets (c.enter (c.nextId d))).count l + (targets (c.guard (c.nextId d) test v)).count l +
      (targets (c.close (c.nextId d))).count l = if l.Issued d (c.claim d) then l.uses else 0 := by
  cases c <;> cases l <;>
    simp [enter, guard, close, body, back, exit, nextId, claim, Label.Issued, List.count_cons,
      Instr.targets, Label.uses] <;>
    grind

end Control

section
variable {d d₁ d₂ : Draft} {cs body : List Instr} {test : Nat} {v : Operand} (c : Control)

theorem Control.issued_of_mem (test : Nat) (v : Operand) {l : Label}
    (h : .label l ∈ c.enter (c.nextId d) ++ c.guard (c.nextId d) test v) :
    l.Issued d (c.claim d) := by
  have := c.count_label d test v l
  by_cases hi : l.Issued d (c.claim d)
  · exact hi
  · rw [← List.count_append, if_neg hi] at this
    have := List.count_pos_iff.mpr h
    omega

theorem Control.forward_guard (hc : Fragment (c.claim d) cs d₁) :
    Forward (c.enter (c.nextId d) ++ cs) (c.guard (c.nextId d) test v) := by
  rw [← List.append_nil (_ ++ cs)]
  refine Forward.of_disjoint ?_ fun l hl hm => ?_
  · simp [guard, Forward, Instr.targets]
  · have hown : l.Issued d (c.claim d) := by
      cases c <;> simp [guard, Instr.targets, body, exit] at hl <;> rcases hl with rfl | rfl <;>
        simp [Label.Issued, nextId, claim]
    rcases List.mem_append.mp hm with hm | hm
    · cases c <;> simp [guard, enter, Instr.targets, body, exit] at hl hm
      rcases hl with rfl | rfl <;> cases hm
    · exact hown.not_issued (.refl _) (hc.mem_iff.mp hm)

theorem Control.forward_close (hc : Fragment (c.claim d) cs d₁) (hb : Fragment d₁ body d₂) :
    Forward (c.enter (c.nextId d) ++ cs ++ c.guard (c.nextId d) test v ++ body)
      (c.close (c.nextId d)) := by
  refine ⟨fun l hl hm => ?_, by simp [Forward, Instr.targets]⟩
  cases c with
  | loop =>
    -- The one jump that goes back.
    simp only [back, Instr.targets, List.mem_singleton] at hl
    exact ⟨nextId .loop d, rfl, rfl⟩
  | branch =>
    simp only [back, Instr.targets, List.mem_singleton] at hl
    subst hl
    have hown : (Label.ifEnd d.ifs).Issued d (claim .branch d) := by simp [Label.Issued, claim]
    simp only [List.mem_append] at hm
    rcases hm with ((hm | hm) | hm) | hm
    · simp [enter] at hm
    · exact absurd (hc.mem_iff.mp hm) (hown.not_issued (.refl _))
    · simp [guard, Control.body, nextId] at hm
    · exact absurd (hb.mem_iff.mp hm) (hown.not_issued hc.before)

theorem Control.forward (hc : Fragment (c.claim d) cs d₁) (hb : Fragment d₁ body d₂) :
    Forward [] (c.enter (c.nextId d) ++ cs ++ c.guard (c.nextId d) test v ++ body ++
      c.close (c.nextId d)) := by
  refine Forward.append (.append (.append (.append ?_ ?_) ?_) ?_) ?_
  · cases c <;> simp [enter, Forward, Instr.targets]
  · rw [List.nil_append, ← List.append_nil (c.enter _)]
    refine hc.forward.of_disjoint fun l hl hm => ?_
    have hown := c.issued_of_mem test v (List.mem_append_left _ hm)
    exact hown.not_issued (.refl _) (hc.issued_of_mem_targets hl)
  · exact c.forward_guard hc
  · rw [List.nil_append, ← List.append_nil (_ ++ c.guard _ _ _)]
    refine hb.forward.of_disjoint fun l hl hm => ?_
    have hl := hb.issued_of_mem_targets hl
    simp only [List.mem_append] at hm
    rcases hm with (hm | hm) | hm
    · have hown := c.issued_of_mem test v (List.mem_append_left _ hm)
      exact hown.not_issued hc.before hl
    · exact (hc.mem_iff.mp hm).not_issued (.refl _) hl
    · exact (c.issued_of_mem test v (List.mem_append_right _ hm)).not_issued hc.before hl
  · exact c.forward_close hc hb

theorem Fragment.control (hc : Fragment (c.claim d) cs d₁) (hb : Fragment d₁ body d₂) :
    Fragment d (c.enter (c.nextId d) ++ cs ++ c.guard (c.nextId d) test v ++ body ++
      c.close (c.nextId d)) d₂ where
  before := (c.before_claim d).trans (hc.before.trans hb.before)
  blocks := by
    simp only [List.append_assoc]
    refine Blocks.append ?_ (hc.blocks.append (.append ?_ (hb.blocks.append ?_)))
    · cases c <;> simp [Control.enter, Blocks, Instr.isLabel, Instr.targets]
    · simp [Control.guard, Blocks, Instr.isLabel, Instr.targets]
    · simp [Control.close, Blocks, Instr.isLabel, Instr.targets]
  forward := c.forward hc hb
  defs l := by
    have := c.count_label d test v l
    rw [← Label.ite_issued_add (c.before_claim d) (hc.before.trans hb.before),
      ← Label.ite_issued_add hc.before hb.before, ← hc.defs, ← hb.defs, ← this]
    simp only [List.count_append]
    omega
  refs l := by
    have := c.count_targets d test v l
    rw [← Label.ite_issued_add (c.before_claim d) (hc.before.trans hb.before),
      ← Label.ite_issued_add hc.before hb.before, ← hc.refs, ← hb.refs, ← this]
    simp only [targets_append, List.count_append]
    omega
  loops id hlo hhi := by
    by_cases hid : (c.claim d).whiles ≤ id
    · by_cases hid' : id < d₁.whiles
      · obtain ⟨xs, ys, rfl, hm⟩ := hc.loops id hid hid'
        exact ⟨c.enter (c.nextId d) ++ xs, ys ++ (c.guard (c.nextId d) test v ++ (body ++
          c.close (c.nextId d))), by simp, List.mem_append_right _ hm⟩
      · obtain ⟨xs, ys, rfl, hm⟩ := hb.loops id (Nat.le_of_not_lt hid') hhi
        exact ⟨c.enter (c.nextId d) ++ (cs ++ (c.guard (c.nextId d) test v ++ xs)),
          ys ++ c.close (c.nextId d), by simp, by simp [hm]⟩
    · -- the loop is the statement itself
      cases c with
      | branch => exact absurd hlo hid
      | loop =>
        obtain rfl : id = d.whiles := by simp only [Control.claim] at hid; omega
        exact ⟨_, [], rfl, by simp [Control.enter, Control.nextId]⟩

end

theorem Emits.fragment {names : List String} {d d' : Draft} {cs : List Instr}
    (h : Emits names d cs d') : Fragment d cs d' := by
  induction h with
  | done => exact .plain ⟨rfl, rfl, rfl⟩ (by simp)
  | @print d d₁ d₂ cs rest v he _ _ ih =>
    have hp : Fragment d₁ [.print v] d₁ := .plain ⟨rfl, rfl, rfl⟩ (by simp [Instr.targets, Instr.isLabel])
    exact he.fragment.append (hp.append (ih.congr ⟨rfl, rfl, rfl⟩ ⟨rfl, rfl, rfl⟩))
  | @assign d d₁ d₂ cs rest v x he _ _ _ ih =>
    have hs : Fragment d₁ [.store v (.var x)] d₁ :=
      .plain ⟨rfl, rfl, rfl⟩ (by simp [Instr.targets, Instr.isLabel])
    exact he.fragment.append (hs.append (ih.congr ⟨rfl, rfl, rfl⟩ ⟨rfl, rfl, rfl⟩))
  | @control d d₁ d₂ d₃ cs body rest v c he _ _ _ ihb ihr =>
    have hc : Fragment (c.claim d) cs d₁ := he.fragment.congr ⟨rfl, rfl, rfl⟩ ⟨rfl, rfl, rfl⟩
    have hb : Fragment d₁ body d₂ := ihb.congr ⟨rfl, rfl, rfl⟩ ⟨rfl, rfl, rfl⟩
    exact (Fragment.control c hc hb).append (ihr.congr ⟨rfl, rfl, rfl⟩ ⟨rfl, rfl, rfl⟩)

/-! ## Routines -/

theorem eq_of_count_le_one {code : List Instr} {i : Instr} (h : code.count i ≤ 1) {p q : Nat}
    (hp : code[p]? = some i) (hq : code[q]? = some i) : p = q := by
  induction code generalizing p q with
  | nil => cases hp
  | cons j code ih =>
    by_cases hj : j = i
    · subst hj
      rw [List.count_cons_self] at h
      have hm : j ∉ code := List.count_eq_zero.mp (by omega)
      cases p with
      | succ p => exact absurd (List.mem_of_getElem? (l := code) hp) hm
      | zero =>
        cases q with
        | succ q => exact absurd (List.mem_of_getElem? (l := code) hq) hm
        | zero => rfl
    · rw [List.count_cons_of_ne hj] at h
      cases p with
      | zero => cases hp; exact absurd rfl hj
      | succ p =>
        cases q with
        | zero => cases hq; exact absurd rfl hj
        | succ q => rw [ih h hp hq]

section
variable {d d' : Draft} {code : List Instr} (h : Fragment d code d')
include h

theorem Fragment.label_unique {l : Label} {p q : Nat} (hp : code[p]? = some (.label l))
    (hq : code[q]? = some (.label l)) : p = q := by
  refine eq_of_count_le_one ?_ hp hq
  rw [h.defs]
  split <;> omega

theorem Fragment.loop_end {id p : Nat} (hp : code[p + 1]? = some (.label (.whileEnd id))) :
    ∃ xs ys, code = xs ++ .jump (.whileTest id) :: .label (.whileEnd id) :: ys ∧
      .label (.whileTest id) ∈ xs ∧ p = xs.length := by
  obtain ⟨hlo, hhi⟩ := h.mem_iff.mp (List.mem_of_getElem? hp)
  obtain ⟨xs, ys, rfl, hm⟩ := h.loops id hlo hhi
  refine ⟨xs, ys, rfl, hm, ?_⟩
  have := h.label_unique hp (q := xs.length + 1) (by simp)
  omega

theorem Fragment.linked : Linked code where
  first l hl := by simpa using h.blocks.first_eq hl
  last i hi := by
    refine Classical.byContradiction fun hn => ?_
    rw [List.getLast?_eq_getElem?] at hi
    obtain ⟨l, hl⟩ := h.blocks.label_after hi hn
    have := (List.getElem?_eq_some_iff.mp hl).1
    omega
  before_label p l hl := h.blocks.before_label hl
  label_after p i hp hi := h.blocks.label_after hp hi
  defined l hl := by rw [h.defs, if_pos (h.issued_of_mem_targets hl)]
  named l hl := by rw [h.refs, if_pos (h.mem_iff.mp hl)]
  backward p i hp := by
    constructor
    · intro ⟨l, hl, q, hq, hlabel⟩
      refine h.forward.backward hp hl (List.mem_of_getElem? (i := q) ?_)
      rw [List.nil_append, List.getElem?_take_of_lt hq]
      exact hlabel
    · rintro ⟨id, rfl, hend⟩
      obtain ⟨xs, ys, rfl, hm, rfl⟩ := h.loop_end hend
      obtain ⟨q, hq⟩ := List.getElem?_of_mem hm
      have hlt := (List.getElem?_eq_some_iff.mp hq).1
      exact ⟨.whileTest id, .head _, q, hlt, by rw [List.getElem?_append_left hlt, hq]⟩
  loops id hid := by
    obtain ⟨hlo, hhi⟩ := h.mem_iff.mp hid
    obtain ⟨xs, ys, rfl, _⟩ := h.loops id hlo hhi
    refine ⟨xs.length, by simp, by simp, fun q _ hq => ?_⟩
    have := h.label_unique hq (q := xs.length + 1) (by simp)
    omega

end

/-- The code of every accepted source is well linked. -/
theorem linked_of_lowerSource {source : String} {code : List Instr}
    (h : lowerSource source = .ok code) : Linked code := by
  obtain ⟨_, _, _, _, _, hc, _, hd, rfl⟩ := emits_of_lowerProgram h
  exact (hc.fragment.append hd.fragment).linked

theorem linked_countdown :
    ∃ code, lowerSource "while (n) \x7b n = n - 1 \x7d" = .ok code ∧ Linked code := by
  have h : lowerSource "while (n) \x7b n = n - 1 \x7d" = .ok
      [.alloca (.var "n"), .store (.literal 0) (.var "n"), .jump (.whileTest 0), .label (.whileTest 0),
       .load 1 (.var "n"), .test 2 .nonzero (.temp 1), .branch 2 (.whileBody 0) (.whileEnd 0),
       .label (.whileBody 0), .load 3 (.var "n"), .arith 4 .sub (.temp 3) (.literal 1),
       .store (.temp 4) (.var "n"), .jump (.whileTest 0), .label (.whileEnd 0)] := by
    cbv
  exact ⟨_, h, linked_of_lowerSource h⟩

end SlotCompiler
