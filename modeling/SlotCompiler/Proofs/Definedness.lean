import SlotCompiler.Proofs.Linkage

/-!
# Nothing is used before it is defined

A path takes either side of every branch. `justified_of_path`: on every path through the code of an
accepted source, what an instruction uses was defined earlier on that path, as a value, a flag or a
slot as the use requires. The proof annotates every label with what holds of all paths that reach
it.
-/

namespace SlotCompiler

/-! ## Paths -/

/-- Control may go from the first position to the second. -/
inductive Edge (code : List Instr) : Nat → Nat → Prop
  | next {p : Nat} {i : Instr} : code[p]? = some i → i.targets = [] → Edge code p (p + 1)
  | jump {p q : Nat} {i : Instr} {l : Label} :
    code[p]? = some i → l ∈ i.targets → code[q]? = some (.label l) → Edge code p q

/-- A path from the first instruction: the positions behind it, and the one it has reached. -/
inductive Path (code : List Instr) : List Nat → Nat → Prop
  | start : Path code [] 0
  | step {ps : List Nat} {p q : Nat} : Path code ps p → Edge code p q → Path code (ps ++ [p]) q

def passed (code : List Instr) (ps : List Nat) : List Instr := ps.filterMap (code[·]?)

def Instr.operands : Instr → List Operand
  | .store v _ | .test _ _ v | .print v => [v]
  | .arith _ _ l r => [l, r]
  | _ => []

def Instr.slot? : Instr → Option Slot
  | .store _ s | .load _ s => some s
  | _ => none

/-- The slot of the variable was allocated and, right after that, set to zero. -/
def Zeroed (τ : List Instr) (x : String) : Prop :=
  ∃ σ ρ, τ = σ ++ .alloca (.var x) :: .store (.literal 0) (.var x) :: ρ

/-- The scratch slot was allocated, and `P` holds of what happened since the last time it was. -/
def Since (τ : List Instr) (t : Nat) (P : List Instr → Prop) : Prop :=
  ∃ σ ρ, τ = σ ++ .alloca (.temp t) :: ρ ∧ .alloca (.temp t) ∉ ρ ∧ P ρ

/-- What `i` uses is defined by the instructions `τ` before it. -/
structure Justified (τ : List Instr) (i : Instr) : Prop where
  value : ∀ t, .temp t ∈ i.operands → ∃ j ∈ τ, j.value? = some t
  flag : ∀ t yes no, i = .branch t yes no → ∃ kind v, .test t kind v ∈ τ
  scratch : ∀ t, i.slot? = some (.temp t) → .alloca (.temp t) ∈ τ
  filled : ∀ dest t, i = .load dest (.temp t) → Since τ t fun ρ => ∃ v, .store v (.temp t) ∈ ρ
  var : ∀ x, i.slot? = some (.var x) →
    Zeroed τ x ∨ i = .store (.literal 0) (.var x) ∧ τ.getLast? = some (.alloca (.var x))

/-! ## Annotated code -/

/-- Where `P` holds before the code, every use is justified, and `Q` holds behind the code; `inv`
holds wherever a label is reached. -/
inductive Safe (inv : Label → List Instr → Prop) :
    (List Instr → Prop) → List Instr → (List Instr → Prop) → Prop
  | nil {P Q : List Instr → Prop} : (∀ τ, P τ → Q τ) → Safe inv P [] Q
  | plain {P Q : List Instr → Prop} {i : Instr} {is : List Instr} (P' : List Instr → Prop) :
    i.targets = [] → i.isLabel = false → (∀ τ, P τ → Justified τ i ∧ P' (τ ++ [i])) →
    Safe inv P' is Q → Safe inv P (i :: is) Q
  | leave {P Q : List Instr → Prop} {i : Instr} {is : List Instr} :
    i.targets ≠ [] → (∀ τ, P τ → Justified τ i ∧ ∀ l ∈ i.targets, inv l (τ ++ [i])) →
    Safe inv (fun _ => False) is Q → Safe inv P (i :: is) Q
  | label {P Q : List Instr → Prop} {l : Label} {is : List Instr} (P' : List Instr → Prop) :
    (∀ τ, P τ → inv l τ) → (∀ τ, inv l τ → P' (τ ++ [.label l])) →
    Safe inv P' is Q → Safe inv P (.label l :: is) Q

section
variable {inv : Label → List Instr → Prop} {P P' Q R : List Instr → Prop} {cs ds : List Instr}

theorem Safe.strengthen (h : Safe inv P cs Q) (hp : ∀ τ, P' τ → P τ) : Safe inv P' cs Q := by
  cases h with
  | nil h => exact .nil fun τ hτ => h τ (hp τ hτ)
  | plain P' ht hl h hs => exact .plain P' ht hl (fun τ hτ => h τ (hp τ hτ)) hs
  | leave ht h hs => exact .leave ht (fun τ hτ => h τ (hp τ hτ)) hs
  | label P' h h' hs => exact .label P' (fun τ hτ => h τ (hp τ hτ)) h' hs

theorem Safe.append (h : Safe inv P cs Q) (h' : Safe inv Q ds R) : Safe inv P (cs ++ ds) R := by
  induction h with
  | nil hq => exact h'.strengthen hq
  | plain P' ht hl hj _ ih => exact .plain P' ht hl hj (ih h')
  | leave ht hj _ ih => exact .leave ht hj (ih h')
  | label P' hp hp' _ ih => exact .label P' hp hp' (ih h')

theorem Safe.weaken (h : Safe inv P cs Q) (hq : ∀ τ, Q τ → R τ) : Safe inv P cs R := by
  rw [← List.append_nil cs]
  exact h.append (.nil hq)

theorem justified_label (τ : List Instr) (l : Label) : Justified τ (.label l) :=
  ⟨by simp [Instr.operands], by simp, by simp [Instr.slot?], by simp, by simp [Instr.slot?]⟩

/-- What holds at each position of the code is enough for the instruction there, and holds again
wherever control goes next. -/
structure Holds (inv : Label → List Instr → Prop) (cs : List Instr) (A : Nat → List Instr → Prop) :
    Prop where
  label : ∀ p l τ, cs[p]? = some (.label l) → inv l τ → A p τ
  step : ∀ p i τ, cs[p]? = some i → A p τ → Justified τ i ∧ (i.targets = [] → A (p + 1) (τ ++ [i])) ∧
    ∀ l ∈ i.targets, inv l (τ ++ [i])

def atFront (P : List Instr → Prop) (A : Nat → List Instr → Prop) : Nat → List Instr → Prop
  | 0 => P
  | p + 1 => A p

theorem Holds.cons {A : Nat → List Instr → Prop} {i : Instr} (h : Holds inv cs A)
    (hl : ∀ l τ, i = .label l → inv l τ → P τ)
    (hs : ∀ τ, P τ → Justified τ i ∧ (i.targets = [] → A 0 (τ ++ [i])) ∧ ∀ l ∈ i.targets, inv l (τ ++ [i])) :
    Holds inv (i :: cs) (atFront P A) where
  label p l τ hp hinv := by
    cases p with
    | zero => cases hp; exact hl l τ rfl hinv
    | succ p => exact h.label p l τ hp hinv
  step p j τ hp hA := by
    cases p with
    | zero => cases hp; exact hs τ hA
    | succ p => exact h.step p j τ hp hA

theorem Safe.positions (h : Safe inv P cs Q) : ∃ A, Holds inv cs A ∧ ∀ τ, P τ → A 0 τ := by
  induction h with
  | nil _ => exact ⟨fun _ _ => True, ⟨by simp, by simp⟩, by simp⟩
  | @plain P Q i is P' ht hl hj _ ih =>
    obtain ⟨A, hA, h0⟩ := ih
    refine ⟨atFront P A, hA.cons ?_ fun τ hτ => ?_, fun τ hτ => hτ⟩
    · rintro l τ rfl
      simp [Instr.isLabel] at hl
    · obtain ⟨hji, hp'⟩ := hj τ hτ
      exact ⟨hji, fun _ => h0 _ hp', by simp [ht]⟩
  | @leave P Q i is ht hj _ ih =>
    obtain ⟨A, hA, _⟩ := ih
    refine ⟨atFront P A, hA.cons ?_ fun τ hτ => ?_, fun τ hτ => hτ⟩
    · rintro l τ rfl
      simp [Instr.targets] at ht
    · obtain ⟨hji, hinv⟩ := hj τ hτ
      exact ⟨hji, fun hn => absurd hn ht, hinv⟩
  | @label P Q l is P' hp hp' _ ih =>
    obtain ⟨A, hA, h0⟩ := ih
    refine ⟨atFront (inv l) A, hA.cons ?_ fun τ hτ => ?_, hp⟩
    · intro l' τ hl' hinv
      cases hl'
      exact hinv
    · exact ⟨justified_label τ l, fun _ => h0 _ (hp' τ hτ), by simp [Instr.targets]⟩

theorem Safe.justified_along (h : Safe inv P cs Q) (h0 : P []) {ps : List Nat} {p : Nat} {i : Instr}
    (hp : Path cs ps p) (hi : cs[p]? = some i) : Justified (passed cs ps) i := by
  obtain ⟨A, ⟨hlab, hstep⟩, hstart⟩ := h.positions
  have key : A p (passed cs ps) := by
    clear hi i
    induction hp with
    | start => exact hstart _ h0
    | @step ps p q _ he ih =>
      cases he with
      | next hj ht =>
        have := (hstep p _ _ hj ih).2.1 ht
        simpa [passed, hj] using this
      | jump hj hl hq =>
        have := (hstep p _ _ hj ih).2.2 _ hl
        exact hlab _ _ _ hq (by simpa [passed, hj] using this)
  exact (hstep p i _ hi key).1

end

/-- Labels of `L` can be annotated so that the code is safe, whatever other labels are annotated
with. -/
def Annotated (L : Label → Prop) (P : List Instr → Prop) (cs : List Instr)
    (Q : List Instr → Prop) : Prop :=
  ∃ inv : Label → List Instr → Prop, ∀ inv', (∀ l, L l → inv' l = inv l) → Safe inv' P cs Q

section
variable {L L' : Label → Prop} {P Q R : List Instr → Prop} {cs ds : List Instr}

theorem Annotated.mono (h : Annotated L P cs Q) (hl : ∀ l, L l → L' l) : Annotated L' P cs Q := by
  obtain ⟨inv, hinv⟩ := h
  exact ⟨inv, fun inv' hi => hinv inv' fun l h => hi l (hl l h)⟩

theorem Annotated.weaken (h : Annotated L P cs Q) (hq : ∀ τ, Q τ → R τ) : Annotated L P cs R := by
  obtain ⟨inv, hinv⟩ := h
  exact ⟨inv, fun inv' hi => (hinv inv' hi).weaken hq⟩

open Classical in
theorem Annotated.append (h : Annotated L P cs Q) (h' : Annotated L' Q ds R)
    (hd : ∀ l, L l → ¬L' l) : Annotated (fun l => L l ∨ L' l) P (cs ++ ds) R := by
  obtain ⟨inv₁, h₁⟩ := h
  obtain ⟨inv₂, h₂⟩ := h'
  refine ⟨fun l => if L l then inv₁ l else inv₂ l, fun inv' hi => (h₁ inv' ?_).append (h₂ inv' ?_)⟩
  · intro l hl
    simp only [hi l (.inl hl), if_pos hl]
  · intro l hl
    have hn : ¬L l := fun hn => hd l hn hl
    simp only [hi l (.inr hl), if_neg hn]

theorem Annotated.plain {i : Instr} (ht : i.targets = []) (hl : i.isLabel = false)
    (h : ∀ τ, P τ → Justified τ i ∧ Q (τ ++ [i])) : Annotated L P [i] Q :=
  ⟨fun _ _ => True, fun _ _ => .plain _ ht hl h (.nil fun _ hq => hq)⟩

end

section
variable {d d₁ d₂ : Draft} {P Q R : List Instr → Prop} {cs ds : List Instr}

theorem Annotated.seq (h : Annotated (Label.Issued d d₁) P cs Q)
    (h' : Annotated (Label.Issued d₁ d₂) Q ds R) (hb : d.Before d₁) (hb' : d₁.Before d₂) :
    Annotated (Label.Issued d d₂) P (cs ++ ds) R := by
  refine (h.append h' fun l hl => hl.not_issued (.refl _)).mono fun l hl => ?_
  exact (Label.issued_iff hb hb').mpr hl

theorem Annotated.congr {e e₁ : Draft} (h : Annotated (Label.Issued d d₁) P cs Q)
    (hd : e.SameIds d) (hd' : d₁.SameIds e₁) : Annotated (Label.Issued e e₁) P cs Q := by
  obtain ⟨hi, hw, hc⟩ := hd
  obtain ⟨hi', hw', hc'⟩ := hd'
  refine h.mono fun l hl => ?_
  cases l <;> simp only [Label.Issued] at hl ⊢ <;> omega

theorem Annotated.snoc {i : Instr} (h : Annotated (Label.Issued d d₁) P cs Q) (hb : d.Before d₁)
    (hs : d₁.SameIds d₂) (ht : i.targets = []) (hl : i.isLabel = false)
    (hj : ∀ τ, Q τ → Justified τ i ∧ R (τ ++ [i])) :
    Annotated (Label.Issued d d₂) P (cs ++ [i]) R :=
  h.seq (.plain ht hl hj) hb hs.before

end

/-! ## Uses -/

section
variable {τ : List Instr} {v l r : Operand} {x : String} {t : Nat}

theorem justified_alloca (s : Slot) : Justified τ (.alloca s) := by
  constructor <;> simp [Instr.operands, Instr.slot?]

theorem justified_jump (l : Label) : Justified τ (.jump l) := by
  constructor <;> simp [Instr.operands, Instr.slot?]

theorem justified_branch {kind : Test} (h : .test t kind v ∈ τ) (yes no : Label) :
    Justified τ (.branch t yes no) := by
  constructor <;> simp [Instr.operands, Instr.slot?]
  exact ⟨kind, v, h⟩

theorem justified_print (h : v.KnownIn τ) : Justified τ (.print v) := by
  constructor <;> simp [Instr.operands, Instr.slot?]
  rintro t rfl
  exact h

theorem justified_test (h : v.KnownIn τ) (t : Nat) (kind : Test) : Justified τ (.test t kind v) := by
  constructor <;> simp [Instr.operands, Instr.slot?]
  rintro t rfl
  exact h

theorem justified_arith (hl : l.KnownIn τ) (hr : r.KnownIn τ) (t : Nat) (a : Arith) :
    Justified τ (.arith t a l r) := by
  constructor <;> simp [Instr.operands, Instr.slot?]
  rintro t (rfl | rfl)
  · exact hl
  · exact hr

theorem justified_load_var (h : Zeroed τ x) (t : Nat) : Justified τ (.load t (.var x)) := by
  constructor <;> simp [Instr.operands, Instr.slot?, h]

theorem justified_store_var (hv : v.KnownIn τ) (h : Zeroed τ x) : Justified τ (.store v (.var x)) := by
  constructor <;> simp [Instr.operands, Instr.slot?, h]
  rintro t rfl
  exact hv

theorem justified_init (τ : List Instr) (x : String) :
    Justified (τ ++ [.alloca (.var x)]) (.store (.literal 0) (.var x)) := by
  constructor <;> simp [Instr.operands, Instr.slot?]

theorem Since.mem {P : List Instr → Prop} (h : Since τ t P) : .alloca (.temp t) ∈ τ := by
  obtain ⟨σ, ρ, rfl, _⟩ := h
  simp

theorem justified_store_temp (hv : v.KnownIn τ) {P : List Instr → Prop} (h : Since τ t P) :
    Justified τ (.store v (.temp t)) := by
  constructor <;> simp [Instr.operands, Instr.slot?, h.mem]
  rintro t rfl
  exact hv

theorem justified_load_temp (h : Since τ t fun ρ => ∃ v, .store v (.temp t) ∈ ρ) (dest : Nat) :
    Justified τ (.load dest (.temp t)) := by
  constructor <;> simp [Instr.operands, Instr.slot?, h.mem]
  exact h

end

/-! ## Expressions -/

/-- The variables are set up, and all values that `cs` defines are there. -/
def Ready (vars : List String) (cs τ : List Instr) : Prop :=
  (∀ x ∈ vars, Zeroed τ x) ∧ ∀ v : Operand, v.KnownIn cs → v.KnownIn τ

section
variable {vars : List String} {cs τ : List Instr}

theorem Zeroed.append {x : String} (h : Zeroed τ x) (ρ : List Instr) : Zeroed (τ ++ ρ) x := by
  obtain ⟨σ, π, rfl⟩ := h
  exact ⟨σ, π ++ ρ, by simp⟩

theorem Ready.append (h : Ready vars cs τ) (ρ : List Instr) : Ready vars cs (τ ++ ρ) :=
  ⟨fun x hx => (h.1 x hx).append ρ, fun v hv => (h.2 v hv).append ρ⟩

theorem Ready.forget (h : Ready vars cs τ) : Ready vars [] τ := by
  refine ⟨h.1, fun v hv => ?_⟩
  cases v with
  | literal n => trivial
  | temp t => obtain ⟨i, hi, _⟩ := hv; cases hi

theorem Ready.snoc (h : Ready vars cs τ) (i : Instr) : Ready vars (cs ++ [i]) (τ ++ [i]) := by
  refine ⟨fun x hx => (h.1 x hx).append [i], fun v hv => ?_⟩
  cases v with
  | literal n => trivial
  | temp t =>
    obtain ⟨j, hj, ht⟩ := hv
    rcases List.mem_append.mp hj with hj | hj
    · exact (h.2 (.temp t) ⟨j, hj, ht⟩).append [i]
    · exact ⟨j, List.mem_append_right _ hj, ht⟩

end

section
variable {τ : List Instr} {t : Nat} {P P' : List Instr → Prop}

theorem Since.snoc (h : Since τ t P) {i : Instr} (hi : i ≠ .alloca (.temp t))
    (hp : ∀ ρ, P ρ → P' (ρ ++ [i])) : Since (τ ++ [i]) t P' := by
  obtain ⟨σ, ρ, rfl, hm, h⟩ := h
  exact ⟨σ, ρ ++ [i], by simp, by simp [hm, hi.symm], hp ρ h⟩

theorem since_alloca (τ : List Instr) (t : Nat) : Since (τ ++ [.alloca (.temp t)]) t fun _ => True :=
  ⟨τ, [], by simp, by simp, trivial⟩

end

/-- The scratch slot of a choice is allocated, and nothing from before the choice is lost. -/
def Open (vars : List String) (cs : List Instr) (t : Nat) (τ : List Instr) : Prop :=
  Ready vars cs τ ∧ Since τ t fun _ => True

/-- The scratch slot of a choice holds a value. -/
def Filled (vars : List String) (cs : List Instr) (t : Nat) (τ : List Instr) : Prop :=
  Ready vars cs τ ∧ Since τ t fun ρ => ∃ v, .store v (.temp t) ∈ ρ

section
variable {vars : List String} {cs τ : List Instr} {t : Nat}

theorem Open.snoc (h : Open vars cs t τ) {i : Instr} (hi : i ≠ .alloca (.temp t)) :
    Open vars cs t (τ ++ [i]) :=
  ⟨h.1.append [i], h.2.snoc hi fun _ _ => trivial⟩

theorem Open.store (h : Open vars cs t τ) (v : Operand) :
    Filled vars cs t (τ ++ [.store v (.temp t)]) :=
  ⟨h.1.append _, h.2.snoc (by simp) fun ρ _ => ⟨v, by simp⟩⟩

theorem Filled.snoc (h : Filled vars cs t τ) {i : Instr} (hi : i ≠ .alloca (.temp t)) :
    Filled vars cs t (τ ++ [i]) := by
  refine ⟨h.1.append [i], h.2.snoc hi ?_⟩
  rintro ρ ⟨v, hv⟩
  exact ⟨v, List.mem_append_left _ hv⟩

variable {inv : Label → List Instr → Prop} {Q : List Instr → Prop} {is : List Instr}

theorem safe_arm {arm last : Label} {v : Operand} (hv : v.KnownIn cs)
    (ha : inv arm = Open vars cs t) (he : inv last = Filled vars cs t)
    (h : Safe inv (fun _ => False) is Q) :
    Safe inv (fun _ => False) (.label arm :: .store v (.temp t) :: .jump last :: is) Q := by
  refine .label (Open vars cs t) nofun (fun τ hτ => ?_) ?_
  · rw [ha] at hτ
    exact hτ.snoc (by simp)
  refine .plain (Filled vars cs t) rfl rfl (fun τ hτ => ?_) ?_
  · exact ⟨justified_store_temp (hτ.1.2 v hv) hτ.2, hτ.store v⟩
  refine .leave (by simp [Instr.targets]) (fun τ hτ => ?_) h
  refine ⟨justified_jump last, ?_⟩
  simp only [Instr.targets, List.mem_singleton, forall_eq, he]
  exact hτ.snoc (by simp)

theorem safe_test {flag : Nat} {kind : Test} {v : Operand} {yes no : Label} (hv : v.KnownIn cs)
    (hy : inv yes = Open vars cs t) (hn : inv no = Open vars cs t)
    (h : Safe inv (fun _ => False) is Q) :
    Safe inv (Open vars cs t) (.test flag kind v :: .branch flag yes no :: is) Q := by
  refine .plain (fun τ => Open vars cs t τ ∧ .test flag kind v ∈ τ) rfl rfl (fun τ hτ => ?_) ?_
  · exact ⟨justified_test (hτ.1.2 v hv) _ _, hτ.snoc (by simp), by simp⟩
  refine .leave (by simp [Instr.targets]) (fun τ hτ => ⟨justified_branch hτ.2 yes no, ?_⟩) h
  have : Open vars cs t (τ ++ [.branch flag yes no]) := hτ.1.snoc (by simp)
  simpa [Instr.targets, hy, hn] using this

theorem safe_select {id isZero isPositive result : Nat} {s z p n : Operand}
    (hs : s.KnownIn cs) (hz : z.KnownIn cs) (hp : p.KnownIn cs) (hn : n.KnownIn cs)
    (harm : ∀ a < 4, inv (.chooseArm a id) = Open vars cs t)
    (hend : inv (.chooseEnd id) = Filled vars cs t) :
    Safe inv (Ready vars cs) (selectCode (.temp t) id isZero isPositive result s z p n)
      (Ready vars (cs ++ [.load result (.temp t)])) := by
  refine .plain (Open vars cs t) rfl rfl (fun τ hτ => ?_) ?_
  · exact ⟨justified_alloca _, hτ.append _, since_alloca τ t⟩
  refine safe_test hs (harm 0 (by omega)) (harm 1 (by omega)) ?_
  refine safe_arm hz (harm 0 (by omega)) hend ?_
  refine .label (Open vars cs t) nofun (fun τ hτ => ?_) ?_
  · rw [harm 1 (by omega)] at hτ
    exact hτ.snoc (by simp)
  refine safe_test hs (harm 2 (by omega)) (harm 3 (by omega)) ?_
  refine safe_arm hp (harm 2 (by omega)) hend ?_
  refine safe_arm hn (harm 3 (by omega)) hend ?_
  refine .label (Filled vars cs t) nofun (fun τ hτ => ?_) ?_
  · rw [hend] at hτ
    exact hτ.snoc (by simp)
  refine .plain _ rfl rfl (fun τ hτ => ?_) (.nil fun _ hq => hq)
  exact ⟨justified_load_temp hτ.2 _, hτ.1.snoc _⟩

end

theorem Operand.KnownIn.of_select {cs : List Instr} {v s z p n : Operand}
    {t id isZero isPositive result : Nat}
    (h : v.KnownIn (cs ++ selectCode (.temp t) id isZero isPositive result s z p n)) :
    v.KnownIn (cs ++ [.load result (.temp t)]) := by
  cases v with
  | literal n => trivial
  | temp u =>
    obtain ⟨i, hi, hu⟩ := h
    rcases List.mem_append.mp hi with hi | hi
    · exact ⟨i, List.mem_append_left _ hi, hu⟩
    · simp only [selectCode, List.mem_cons, List.not_mem_nil, or_false] at hi
      rcases hi with rfl | rfl | rfl | rfl | rfl | rfl | rfl | rfl | rfl | rfl | rfl | rfl | rfl | rfl |
        rfl | rfl | rfl <;> cases hu
      exact ⟨_, List.mem_append_right _ (.head _), rfl⟩

theorem Evaluates.annotated {names : List String} {d d' : Draft} {ps : List Nat} {cs : List Instr}
    (h : Evaluates names d ps cs d') :
    Annotated (Label.Issued d d') (Ready d.vars []) cs (Ready d'.vars cs) := by
  induction h with
  | start => exact ⟨fun _ _ => True, fun _ _ => .nil fun _ hq => hq⟩
  | @grant ps cs d' x he hx _ hn ih =>
    let Behind (τ : List Instr) : Prop := ∃ σ, τ = σ ++ [.alloca (.var x)] ∧ Ready d'.vars cs σ
    have h₁ : Annotated (Label.Issued d d') (Ready d.vars []) (cs ++ [.alloca (.var x)]) Behind :=
      ih.snoc he.fragment.before ⟨rfl, rfl, rfl⟩ rfl rfl fun τ hτ => ⟨justified_alloca _, τ, rfl, hτ⟩
    rw [← List.singleton_append, ← List.append_assoc]
    refine h₁.snoc he.fragment.before ⟨rfl, rfl, rfl⟩ rfl rfl ?_
    rintro _ ⟨σ, rfl, hσ⟩
    obtain ⟨hz, hk⟩ := (hσ.snoc (.alloca (.var x))).snoc (.store (.literal 0) (.var x))
    refine ⟨justified_init σ x, fun y hy => ?_, hk⟩
    rcases List.mem_append.mp hy with hy | hy
    · exact hz y hy
    · obtain rfl := List.mem_singleton.mp hy
      exact ⟨σ, [], by simp⟩
  | load he hx ih =>
    refine ih.snoc he.fragment.before ⟨rfl, rfl, rfl⟩ rfl rfl fun τ hτ => ?_
    exact ⟨justified_load_var (hτ.1 _ hx) _, hτ.snoc _⟩
  | arith he hl hr ih =>
    refine ih.snoc he.fragment.before ⟨rfl, rfl, rfl⟩ rfl rfl fun τ hτ => ?_
    exact ⟨justified_arith (hτ.2 _ hl) (hτ.2 _ hr) _ _, hτ.snoc _⟩
  | reserve he ih => exact ih.mono fun l hl => by cases l <;> exact hl
  | @select ps cs d' t s z p n he hs hz hp hn ih =>
    have hsel := Fragment.select d' t s z p n
    refine ih.seq ?_ he.fragment.before hsel.before
    refine ⟨fun l => match l with
      | .chooseEnd _ => Filled d'.vars cs t
      | _ => Open d'.vars cs t, fun inv hinv => ?_⟩
    refine (safe_select hs hz hp hn ?_ ?_).weaken fun τ hτ => ?_
    · exact fun a ha => hinv _ ⟨ha, Nat.le_refl _, Nat.lt_succ_self _⟩
    · exact hinv _ ⟨Nat.le_refl _, Nat.lt_succ_self _⟩
    · exact ⟨hτ.1, fun v hv => hτ.2 v hv.of_select⟩

/-! ## Statements -/

section
variable {names : List String} {d d₁ d₂ : Draft} {vars : List String} {cs body : List Instr}
variable {inv : Label → List Instr → Prop}

theorem safe_jump {l : Label} {Q : List Instr → Prop} {is : List Instr}
    (hl : inv l = Ready vars []) (h : Safe inv (fun _ => False) is Q) :
    Safe inv (Ready vars []) (.jump l :: is) Q := by
  refine .leave (by simp [Instr.targets]) (fun τ hτ => ⟨justified_jump l, ?_⟩) h
  simpa [Instr.targets, hl] using hτ.append [.jump l]

theorem safe_label {l : Label} {is : List Instr} {Q : List Instr → Prop} (hl : inv l = Ready vars [])
    (h : Safe inv (Ready vars []) is Q) : Safe inv (fun _ => False) (.label l :: is) Q := by
  refine .label (Ready vars []) nofun (fun τ hτ => ?_) h
  rw [hl] at hτ
  exact hτ.append _

theorem safe_guard {test : Nat} {v : Operand} {yes no : Label} (hv : v.KnownIn cs)
    (hy : inv yes = Ready vars []) (hn : inv no = Ready vars []) :
    Safe inv (Ready vars cs) [.test test .nonzero v, .branch test yes no, .label yes]
      (Ready vars []) := by
  refine .plain (fun τ => Ready vars [] τ ∧ .test test .nonzero v ∈ τ) rfl rfl (fun τ hτ => ?_) ?_
  · exact ⟨justified_test (hτ.2 v hv) _ _, hτ.forget.append _, by simp⟩
  refine .leave (by simp [Instr.targets]) (fun τ hτ => ⟨justified_branch hτ.2 yes no, ?_⟩) ?_
  · have := hτ.1.append [.branch test yes no]
    simpa [Instr.targets, hy, hn] using this
  · exact safe_label hy (.nil fun _ hq => hq)

open Classical in
/-- What holds where a label of a statement with a block is reached: all values from before the
statement are forgotten, no variable is. -/
theorem Annotated.control {test : Nat} {v : Operand} (c : Control)
    (hc : Annotated (Label.Issued (c.claim d) d₁) (Ready vars []) cs (Ready vars cs))
    (hb : Annotated (Label.Issued d₁ d₂) (Ready vars []) body (Ready vars []))
    (hv : v.KnownIn cs) (h₁ : (c.claim d).Before d₁) (h₂ : d₁.Before d₂) :
    Annotated (Label.Issued d d₂) (Ready vars []) (c.enter (c.nextId d) ++ cs ++
      c.guard (c.nextId d) test v ++ body ++ c.close (c.nextId d)) (Ready vars []) := by
  obtain ⟨invc, hc⟩ := hc
  obtain ⟨invb, hb⟩ := hb
  -- The statement, its condition and its body have labels of their own.
  refine ⟨fun l => if l.Issued d (c.claim d) then Ready vars [] else
    if l.Issued (c.claim d) d₁ then invc l else invb l, fun inv hinv => ?_⟩
  have issued {l : Label} (h : l.Issued d (c.claim d) ∨ l.Issued (c.claim d) d₁ ∨ l.Issued d₁ d₂) :
      l.Issued d d₂ := by
    rwa [Label.issued_iff (c.before_claim d) (h₁.trans h₂), Label.issued_iff h₁ h₂]
  have hown : ∀ l : Label, l.Issued d (c.claim d) → inv l = Ready vars [] := by
    intro l hl
    simp only [hinv l (issued (.inl hl)), if_pos hl]
  have hcs : Safe inv (Ready vars []) cs (Ready vars cs) := by
    refine hc inv fun l hl => ?_
    have hn : ¬l.Issued d (c.claim d) := fun hn => hn.not_issued (.refl _) hl
    simp only [hinv l (issued (.inr (.inl hl))), if_neg hn, if_pos hl]
  have hbody : Safe inv (Ready vars []) body (Ready vars []) := by
    refine hb inv fun l hl => ?_
    have hn : ¬l.Issued d (c.claim d) := fun hn => hn.not_issued h₁ hl
    have hn' : ¬l.Issued (c.claim d) d₁ := fun hn => hn.not_issued (.refl _) hl
    simp only [hinv l (issued (.inr (.inr hl))), if_neg hn, if_neg hn']
  have henter : Safe inv (Ready vars []) (c.enter (c.nextId d)) (Ready vars []) := by
    cases c with
    | branch => exact .nil fun _ hq => hq
    | loop =>
      have := hown (.whileTest d.whiles) ⟨Nat.le_refl _, Nat.lt_succ_self _⟩
      exact safe_jump this (safe_label this (.nil fun _ hq => hq))
  have hyes : inv (c.body (c.nextId d)) = Ready vars [] :=
    hown _ (by cases c <;> exact ⟨Nat.le_refl _, Nat.lt_succ_self _⟩)
  have hno : inv (c.exit (c.nextId d)) = Ready vars [] :=
    hown _ (by cases c <;> exact ⟨Nat.le_refl _, Nat.lt_succ_self _⟩)
  have hback : inv (c.back (c.nextId d)) = Ready vars [] :=
    hown _ (by cases c <;> exact ⟨Nat.le_refl _, Nat.lt_succ_self _⟩)
  have hclose := safe_jump hback (safe_label hno (.nil fun _ hq => hq))
  exact (((henter.append hcs).append (safe_guard hv hyes hno)).append hbody).append hclose

theorem Evaluates.annotated_snoc {i : Instr} {v : Operand} (h : Evaluates names d [] cs d₁)
    (hn : names ⊆ d.vars) (hv : v.KnownIn cs) (ht : i.targets = []) (hl : i.isLabel = false)
    (hj : ∀ τ, Ready d.vars [] τ → v.KnownIn τ → Justified τ i) :
    Annotated (Label.Issued d d₁) (Ready d.vars []) (cs ++ [i]) (Ready d₁.vars []) := by
  refine h.annotated.snoc h.fragment.before ⟨rfl, rfl, rfl⟩ ht hl fun τ hτ => ?_
  exact ⟨hj τ (h.vars_eq hn ▸ hτ.forget) (hτ.2 v hv), hτ.forget.append _⟩

theorem Emits.annotated (h : Emits names d cs d₁) (hn : names ⊆ d.vars) :
    Annotated (Label.Issued d d₁) (Ready d.vars []) cs (Ready d₁.vars []) := by
  induction h with
  | done => exact ⟨fun _ _ => True, fun _ _ => .nil fun _ hq => hq⟩
  | @print d d₁ d₂ cs rest v he hv hr ih =>
    have h₁ := he.annotated_snoc hn hv rfl rfl fun τ _ hv => justified_print hv
    have h₂ := (ih (he.vars_eq hn ▸ hn)).congr (e := d₁) ⟨rfl, rfl, rfl⟩ ⟨rfl, rfl, rfl⟩
    have hb : d₁.Before d₂ := hr.fragment.before.congr ⟨rfl, rfl, rfl⟩
    rw [← List.singleton_append, ← List.append_assoc]
    exact h₁.seq h₂ he.fragment.before hb
  | @assign d d₁ d₂ cs rest v x he hv hx hr ih =>
    rw [he.vars_eq hn] at hx
    have h₁ := he.annotated_snoc hn hv rfl rfl fun τ hτ hv => justified_store_var hv (hτ.1 _ hx)
    have h₂ := (ih (he.vars_eq hn ▸ hn)).congr (e := d₁) ⟨rfl, rfl, rfl⟩ ⟨rfl, rfl, rfl⟩
    have hb : d₁.Before d₂ := hr.fragment.before.congr ⟨rfl, rfl, rfl⟩
    rw [← List.singleton_append, ← List.append_assoc]
    exact h₁.seq h₂ he.fragment.before hb
  | @control d d₁ d₂ d₃ cs body rest v c he hv hb hr ihb ihr =>
    have hd : d₁.vars = d.vars := (he.vars_eq (by simpa using hn)).trans (by simp)
    have hd₂ : d₂.vars = d.vars := (hb.vars_eq (by simpa [Draft.takeTemp, hd] using hn)).trans hd
    have hc := he.annotated.congr (e := c.claim d) ⟨rfl, rfl, rfl⟩ ⟨rfl, rfl, rfl⟩
    have hbody := (ihb (by simpa [Draft.takeTemp, hd] using hn)).congr (e := d₁) ⟨rfl, rfl, rfl⟩
      ⟨rfl, rfl, rfl⟩
    have hrest := (ihr (hd₂ ▸ hn)).congr (e := d₂) ⟨rfl, rfl, rfl⟩ ⟨rfl, rfl, rfl⟩
    simp only [Draft.push_vars, Control.claim_vars, Draft.takeTemp, hd, hd₂] at hc hbody hrest
    have h₁ : (c.claim d).Before d₁ := he.fragment.before.congr ⟨rfl, rfl, rfl⟩
    have h₂ : d₁.Before d₂ := hb.fragment.before.congr ⟨rfl, rfl, rfl⟩
    have h₃ : d₂.Before d₃ := hr.fragment.before.congr ⟨rfl, rfl, rfl⟩
    exact (hc.control c hbody hv h₁ h₂).seq hrest (((c.before_claim d).trans h₁).trans h₂) h₃

end

/-! ## Routines -/

/-- On every path through the code of an accepted source, what an instruction uses is defined. -/
theorem justified_of_path {source : String} {code : List Instr} (h : lowerSource source = .ok code)
    {ps : List Nat} {p : Nat} {i : Instr} (hp : Path code ps p) (hi : code[p]? = some i) :
    Justified (passed code ps) i := by
  obtain ⟨names, d, d', cs, ds, hc, hn, hd, rfl⟩ := emits_of_lowerProgram h
  have hcs := hc.annotated.weaken fun τ hτ => hτ.forget
  obtain ⟨inv, hinv⟩ := hcs.seq (hd.annotated hn) hc.fragment.before hd.fragment.before
  have hstart : Ready ({} : Draft).vars [] [] := ⟨nofun, fun _ hv => hv⟩
  exact (hinv inv fun _ _ => rfl).justified_along hstart hp hi

theorem justified_guarded_print : ∃ code ps p, lowerSource "if (n) \x7b print(n) \x7d" = .ok code ∧
    Path code ps p ∧ code[p]? = some (.print (.temp 3)) ∧
    Justified (passed code ps) (.print (.temp 3)) := by
  let code : List Instr := [.alloca (.var "n"), .store (.literal 0) (.var "n"), .load 1 (.var "n"),
    .test 2 .nonzero (.temp 1), .branch 2 (.ifBody 0) (.ifEnd 0), .label (.ifBody 0),
    .load 3 (.var "n"), .print (.temp 3), .jump (.ifEnd 0), .label (.ifEnd 0)]
  have h : lowerSource "if (n) \x7b print(n) \x7d" = .ok code := by cbv
  have h₄ : Path code [0, 1, 2, 3] 4 :=
    (((Path.start.step (.next rfl rfl)).step (.next rfl rfl)).step (.next rfl rfl)).step (.next rfl rfl)
  have h₅ : Path code [0, 1, 2, 3, 4] 5 := h₄.step (.jump rfl (.head _) rfl)
  have h₇ : Path code [0, 1, 2, 3, 4, 5, 6] 7 := (h₅.step (.next rfl rfl)).step (.next rfl rfl)
  exact ⟨code, _, 7, h, h₇, rfl, justified_of_path h h₇ rfl⟩

end SlotCompiler
