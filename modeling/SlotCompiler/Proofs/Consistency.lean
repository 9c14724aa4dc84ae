import SlotCompiler.Proofs.Hoisting
import SlotCompiler.Proofs.Interruption
import SlotCompiler.Proofs.Numbering

/-!
# Drafts stay consistent

A draft may be handed to any of the steps of the lowering, in any order, and go on in use after a step
that has failed. `consistent_of_calls`: each step only adds to the draft, and at every time the code,
the variables and the counters of the draft agree with each other.
-/

namespace SlotCompiler

/-! ## Growth -/

/-- The code defines each label at most once, and only labels handed out between the two drafts. -/
structure Labelled (d : Draft) (cs : List Instr) (d' : Draft) : Prop where
  before : d.Before d'
  once (l : Label) : cs.count (.label l) ≤ if l.Issued d d' then 1 else 0

section
variable {d d₁ d₂ : Draft} {cs ds body : List Instr}

theorem Fragment.labelled (h : Fragment d cs d₁) : Labelled d cs d₁ :=
  ⟨h.before, fun l => Nat.le_of_eq (h.defs l)⟩

theorem Labelled.append (h : Labelled d cs d₁) (h' : Labelled d₁ ds d₂) : Labelled d (cs ++ ds) d₂ := by
  refine ⟨h.before.trans h'.before, ?_⟩
  intro l
  rw [List.count_append, ← Label.ite_issued_add h.before h'.before]
  exact Nat.add_le_add (h.once l) (h'.once l)

theorem Labelled.of_append (h : Labelled d (cs ++ ds) d₁) : Labelled d cs d₁ := by
  refine ⟨h.before, ?_⟩
  intro l
  exact Nat.le_trans ((List.sublist_append_left ..).count_le _) (h.once l)

theorem Labelled.skip (h : d.Before d₁) : Labelled d [] d₁ := ⟨h, fun _ => Nat.zero_le _⟩

theorem Labelled.congr (h : Labelled d₁ cs d₂) (hd : d.SameIds d₁) : Labelled d cs d₂ :=
  (Labelled.skip hd.before).append h

/-- A statement that is left in its body has not defined all of its labels. -/
theorem Labelled.control (c : Control) (test : Nat) (v : Operand) (hc : Labelled (c.claim d) cs d₁)
    (hb : Labelled d₁ body d₂) :
    Labelled d (c.enter (c.nextId d) ++ cs ++ c.guard (c.nextId d) test v ++ body) d₂ := by
  refine ⟨(c.before_claim d).trans (hc.before.trans hb.before), ?_⟩
  intro l
  have hown := c.count_label d test v l
  have hinner := (hc.append hb).once l
  rw [List.count_append] at hinner
  rw [← Label.ite_issued_add (c.before_claim d) (hc.before.trans hb.before), ← hown]
  simp only [List.count_append]
  omega

end

/-- The second draft has come from the first one by adding the code. -/
structure Draft.Grows (d : Draft) (cs : List Instr) (d' : Draft) : Prop where
  code : d'.code = d.code ++ cs
  slots : Slotted d cs d'
  temps : ∃ ps, Numbered d ps cs d'
  labels : Labelled d cs d'

theorem Draft.Grows.trans {d d₁ d₂ : Draft} {cs ds : List Instr} (h : d.Grows cs d₁)
    (h' : d₁.Grows ds d₂) : d.Grows (cs ++ ds) d₂ where
  code := by rw [h'.code, h.code, List.append_assoc]
  slots := h.slots.append h'.slots
  temps := by
    obtain ⟨ps, hp⟩ := h.temps
    obtain ⟨qs, hq⟩ := h'.temps
    exact ⟨ps ++ qs, hp.append hq⟩
  labels := h.labels.append h'.labels

theorem Draft.Grows.skip {d d' : Draft} (hc : d'.code = d.code) (hv : d'.vars = d.vars)
    (ht : d'.temps = d.temps) (hb : d.Before d') : d.Grows [] d' where
  code := by rw [hc, List.append_nil]
  slots := .plain hv (by simp) (by simp)
  temps := ⟨[], .plain ht rfl⟩
  labels := .skip hb

section
variable {names : List String} {d d' : Draft} {ps : List Nat} {cs : List Instr}

theorem Evaluates.grows (h : Evaluates names d ps cs d') : d.Grows cs d' :=
  ⟨h.code_eq, h.slotted, ⟨ps, h.numbered⟩, h.fragment.labelled⟩

theorem Emits.grows (h : Emits names d cs d') : d.Grows cs d' :=
  ⟨h.code_eq, h.slotted, ⟨[], h.numbered⟩, h.fragment.labelled⟩

theorem Evaluates.labelled_claim {c : Control}
    (h : Evaluates names ((c.claim d).push (c.enter (c.nextId d))) ps cs d') :
    Labelled (c.claim d) cs d' :=
  h.fragment.labelled.congr ⟨rfl, rfl, rfl⟩

theorem Stops.grows (h : Stops names d cs d') : d.Grows cs d' := by
  induction h with
  | expr he => exact he.grows
  | next he _ ih => exact he.grows.trans ih
  | @cond d d₁ ps cs c he =>
    -- As if the header were whole: what it lacks would only define more labels.
    have hown := Labelled.control c 0 (.literal 0) he.labelled_claim (.skip (.refl d₁))
    refine ⟨?_, (Slotted.enter c d).append he.slotted, ⟨_, (Numbered.enter c d).append he.numbered⟩, ?_⟩
    · rw [he.code_eq]
      simp
    · exact hown.of_append.of_append
  | @body d d₁ d₂ cs body v c he _ ih =>
    obtain ⟨qs, hq⟩ := ih.temps
    have hbody : Labelled d₁ body d₂ := ih.labels.congr ⟨rfl, rfl, rfl⟩
    have htemps := ((Numbered.enter c d).append he.numbered).append (.guard c d₁ v (c.nextId d))
    refine ⟨?_, ?_, ⟨_, htemps.append hq⟩, Labelled.control c _ v he.labelled_claim hbody⟩
    · rw [ih.code, Draft.push_code, Draft.takeTemp, he.code_eq]
      simp
    · exact (((Slotted.enter c d).append he.slotted).append (.guard c ..)).append ih.slots

end

/-! ## Calls -/

/-- The draft that a step leaves behind, whether it succeeds or fails. -/
def leave {ε α : Type} (x : EStateM ε Draft α) (d : Draft) : Draft :=
  match x.run d with
  | .ok _ d' => d'
  | .error _ d' => d'

/-- The step adds to every draft, and takes nothing back if it fails. -/
def Additive {ε α : Type} (x : EStateM ε Draft α) : Prop :=
  ∀ d : Draft, ∃ cs, d.Grows cs (leave x d)

section
variable {ε α : Type}

theorem additive_of_run {x : EStateM ε Draft α}
    (hok : ∀ {d a d'}, x.run d = .ok a d' → ∃ cs, d.Grows cs d')
    (herror : ∀ {d e d'}, x.run d = .error e d' → ∃ cs, d.Grows cs d') : Additive x := by
  intro d
  unfold leave
  split
  · rename_i h
    exact hok h
  · rename_i h
    exact herror h

theorem Additive.atLine {x : EStateM Cause Draft α} (h : Additive x) (n : Nat) :
    Additive (atLine n x) := by
  intro d
  have heq : leave (SlotCompiler.atLine n x) d = leave x d := by
    unfold leave SlotCompiler.atLine
    rw [EStateM.run_adaptExcept]
    cases x.run d <;> rfl
  rw [heq]
  exact h d

end

theorem Evaluates.Breaks.grows {names : List String} {d d' : Draft}
    (h : Evaluates.Breaks names d [] d') : ∃ cs, d.Grows cs d' := by
  obtain ⟨_, cs, h⟩ := h
  exact ⟨cs, h.grows⟩

theorem covers_self (ts : List Token) : Covers ts ts := fun _ ht _ => ht

theorem additive_declare (x : Token) : Additive (declare x) := by
  have hstart : ∀ d, Evaluates [x] d [] [] d := fun _ => .start
  apply additive_of_run
  · intro d slot d' h
    obtain ⟨cs, he, _⟩ := declare_evaluates (hstart d) (by simp) h
    exact ⟨cs, he.grows⟩
  · intro d c d' h
    exact (declare_breaks (hstart d) h).grows

theorem additive_loadVar (x : Token) : Additive (loadVar x) := by
  have hstart : ∀ d, Evaluates [x] d [] [] d := fun _ => .start
  apply additive_of_run
  · intro d v d' h
    obtain ⟨cs, he, _⟩ := loadVar_evaluates (hstart d) (by simp) h
    exact ⟨cs, he.grows⟩
  · intro d c d' h
    exact (loadVar_breaks (hstart d) h).grows

theorem additive_lowerExpr (ts : List Token) : Additive (lowerExpr ts) := by
  apply additive_of_run
  · intro d v d' h
    obtain ⟨cs, he, _⟩ := lower_evaluates.1 ts (covers_self ts) .start h
    exact ⟨cs, he.grows⟩
  · intro d c d' h
    exact (lower_breaks.1 ts (covers_self ts) .start h).grows

theorem additive_lowerChoose (ts : List Token) : Additive (lowerChoose ts) := by
  apply additive_of_run
  · intro d v d' h
    obtain ⟨cs, he, _⟩ := lower_evaluates.2.2 ts (covers_self ts) .start h
    exact ⟨cs, he.grows⟩
  · intro d c d' h
    exact (lower_breaks.2.2 ts (covers_self ts) .start h).grows

theorem additive_lowerLines (lines : List Line) : Additive (lowerLines lines) := by
  apply additive_of_run
  · intro d _ d' h
    obtain ⟨cs, he⟩ := lowerLines_emits (covers_namesOf lines) h
    exact ⟨cs, he.grows⟩
  · intro d e d' h
    obtain ⟨cs, he⟩ := stops_of_lowerLines (covers_namesOf lines) h
    exact ⟨cs, he.grows⟩

theorem Draft.hoist_grows (d : Draft) (lines : List Line) : ∃ cs, d.Grows cs (d.hoist lines) := by
  have hstart : Evaluates (namesOf lines) d [] [] d := .start
  have hnames : ∀ x ∈ namesOf lines, Token.isName x ∧ x ∈ namesOf lines :=
    fun x hx => ⟨(List.mem_filter.mp hx).2, hx⟩
  obtain ⟨cs, he, _⟩ := foldl_allocate_evaluates hstart hnames
  exact ⟨cs, he.grows⟩

/-- What can be asked of a draft; the line is the one to blame. -/
inductive Call
  | declare (x : Token) (line : Nat)
  | load (x : Token) (line : Nat)
  | expr (ts : List Token) (line : Nat)
  | choose (ts : List Token) (line : Nat)
  | hoist (lines : List Line)
  | lower (lines : List Line)
  | temp
  | ifId
  | whileId
  | chooseId
  deriving DecidableEq, Repr

def Call.apply (d : Draft) : Call → Draft
  | .declare x line => leave (atLine line (SlotCompiler.declare x)) d
  | .load x line => leave (atLine line (loadVar x)) d
  | .expr ts line => leave (atLine line (lowerExpr ts)) d
  | .choose ts line => leave (atLine line (lowerChoose ts)) d
  | .hoist lines => d.hoist lines
  | .lower lines => leave (lowerLines lines) d
  | .temp => leave (freshTemp : EStateM SyntaxError Draft Nat) d
  | .ifId => leave (freshIf : EStateM SyntaxError Draft Nat) d
  | .whileId => leave (freshWhile : EStateM SyntaxError Draft Nat) d
  | .chooseId => leave (freshChoose : EStateM SyntaxError Draft Nat) d

/-- The draft after the calls, from the empty one. -/
def draftAfter (calls : List Call) : Draft := calls.foldl Call.apply {}

theorem Call.grows (call : Call) (d : Draft) : ∃ cs, d.Grows cs (call.apply d) := by
  cases call with
  | declare x line => exact (additive_declare x).atLine line d
  | load x line => exact (additive_loadVar x).atLine line d
  | expr ts line => exact (additive_lowerExpr ts).atLine line d
  | choose ts line => exact (additive_lowerChoose ts).atLine line d
  | hoist lines => exact d.hoist_grows lines
  | lower lines => exact additive_lowerLines lines d
  | temp =>
    have hreserve : Evaluates [] d [d.temps + 1] [] d.takeTemp := .reserve .start
    exact ⟨[], hreserve.grows⟩
  | ifId => exact ⟨[], .skip rfl rfl rfl (Control.before_claim .branch d)⟩
  | whileId => exact ⟨[], .skip rfl rfl rfl (Control.before_claim .loop d)⟩
  | chooseId =>
    have hb : d.Before { d with chooses := d.chooses + 1 } :=
      ⟨Nat.le_refl _, Nat.le_refl _, Nat.le_succ _⟩
    exact ⟨[], .skip rfl rfl rfl hb⟩

theorem draftAfter_grows (calls : List Call) : ∃ cs, Draft.Grows {} cs (draftAfter calls) := by
  -- From the last call backwards, since growth is carried on at the end of the code.
  induction calls using List.reverseRecOn with
  | nil => exact ⟨[], .skip rfl rfl rfl (.refl _)⟩
  | append_singleton calls call ih =>
    obtain ⟨cs, h⟩ := ih
    obtain ⟨ds, h'⟩ := call.grows (draftAfter calls)
    rw [draftAfter, List.foldl_concat]
    exact ⟨cs ++ ds, h.trans h'⟩

/-! ## Consistency -/

/-- The first draft may turn into the second one: nothing is taken back. -/
structure Draft.Precedes (d d' : Draft) : Prop where
  code : d.code <+: d'.code
  vars : d.vars <+: d'.vars
  temps : d.temps ≤ d'.temps
  ifs : d.ifs ≤ d'.ifs
  whiles : d.whiles ≤ d'.whiles
  chooses : d.chooses ≤ d'.chooses

/-- The code, the variables and the counters of a draft agree. -/
structure Draft.Consistent (d : Draft) : Prop where
  allocated (x : String) : x ∈ d.vars ↔ .alloca (.var x) ∈ d.code
  granted : ∀ x ∈ d.vars, Granted d.code x
  named : ∀ x ∈ d.vars, Token.isName x
  temps_nodup : (definedTemps d.code).Nodup
  temps_bound : ∀ t ∈ definedTemps d.code, 1 ≤ t ∧ t ≤ d.temps
  labels (l : Label) : .label l ∈ d.code → l.Issued {} d ∧ d.code.count (.label l) = 1

theorem Draft.Grows.precedes {d d' : Draft} {cs : List Instr} (h : d.Grows cs d') : d.Precedes d' where
  code := h.code ▸ List.prefix_append ..
  vars := h.slots.vars
  temps := by
    obtain ⟨_, n, hn, _⟩ := h.temps
    omega
  ifs := h.labels.before.ifs
  whiles := h.labels.before.whiles
  chooses := h.labels.before.chooses

theorem Granted.mem {cs : List Instr} {x : String} (h : Granted cs x) : .alloca (.var x) ∈ cs := by
  obtain ⟨front, back, rfl, _⟩ := h
  simp

theorem Draft.Grows.consistent {d : Draft} {cs : List Instr} (h : Draft.Grows {} cs d) :
    d.Consistent := by
  obtain rfl : d.code = cs := h.code
  obtain ⟨ps, n, hn, hp⟩ := h.temps
  have hgranted : ∀ x ∈ d.vars, Granted d.code x := fun x hx => h.slots.granted x hx List.not_mem_nil
  constructor
  · intro x
    exact ⟨fun hx => (hgranted x hx).mem, fun hx => (h.slots.fresh x hx).1⟩
  · exact hgranted
  · intro x hx
    exact (h.slots.named x hx).resolve_left List.not_mem_nil
  · exact (hp.nodup_iff.mpr List.nodup_range').of_append_left
  · intro t ht
    have hr := List.mem_range'_1.mp (hp.mem_iff.mp (List.mem_append_left _ ht))
    omega
  · intro l hl
    -- A label that was not handed out has no place in the code.
    have hpos := List.count_pos_iff.mpr hl
    have hle := h.labels.once l
    by_cases hi : l.Issued {} d
    · rw [if_pos hi] at hle
      exact ⟨hi, by omega⟩
    · rw [if_neg hi] at hle
      omega

theorem consistent_of_calls (calls : List Call) (call : Call) :
    (draftAfter calls).Precedes (draftAfter (calls ++ [call])) ∧ (draftAfter calls).Consistent := by
  obtain ⟨cs, h⟩ := draftAfter_grows calls
  obtain ⟨ds, h'⟩ := call.grows (draftAfter calls)
  refine ⟨?_, h.consistent⟩
  rw [draftAfter, draftAfter, List.foldl_concat]
  exact h'.precedes

end SlotCompiler
