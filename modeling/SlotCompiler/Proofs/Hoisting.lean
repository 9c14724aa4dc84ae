import SlotCompiler.Proofs.Definedness

/-!
# Variables get their slots first

Lowering treats the slot of a variable in one way: it is allocated once, set to zero right behind
that, and not touched before. A program is lowered behind the slots of all its names, so there is
none left to allocate in its statements: `hoisted_of_lowerSource`.
-/

namespace SlotCompiler

/-! ## Slots of variables -/

/-- The variable gets its one slot in the code, set to zero at once and not used before. -/
def Granted (cs : List Instr) (x : String) : Prop :=
  ∃ front back, cs = front ++ .alloca (.var x) :: .store (.literal 0) (.var x) :: back ∧
    .alloca (.var x) ∉ front ∧ .alloca (.var x) ∉ back ∧ ∀ i ∈ front, i.slot? ≠ some (.var x)

/-- Just the variables that are new in the second draft get a slot in the code. -/
structure Slotted (d : Draft) (cs : List Instr) (d' : Draft) : Prop where
  vars : d.vars <+: d'.vars
  named : ∀ x ∈ d'.vars, x ∈ d.vars ∨ Token.isName x
  granted : ∀ x ∈ d'.vars, x ∉ d.vars → Granted cs x
  fresh : ∀ x, .alloca (.var x) ∈ cs → x ∈ d'.vars ∧ x ∉ d.vars
  used : ∀ i ∈ cs, ∀ x, i.slot? = some (.var x) → x ∈ d'.vars

section
variable {d d₁ d₂ : Draft} {cs ds : List Instr} {x : String}

theorem Granted.append_right (h : Granted cs x) (hd : .alloca (.var x) ∉ ds) : Granted (cs ++ ds) x := by
  obtain ⟨front, back, rfl, hf, hb, hu⟩ := h
  refine ⟨front, back ++ ds, by simp, hf, ?_, hu⟩
  intro hm
  exact (List.mem_append.mp hm).elim hb hd

theorem Granted.append_left (h : Granted ds x) (hc : .alloca (.var x) ∉ cs)
    (hn : ∀ i ∈ cs, i.slot? ≠ some (.var x)) : Granted (cs ++ ds) x := by
  obtain ⟨front, back, rfl, hf, hb, hu⟩ := h
  refine ⟨cs ++ front, back, by simp, ?_, hb, ?_⟩
  · intro hm
    exact (List.mem_append.mp hm).elim hc hf
  · intro i hi
    exact (List.mem_append.mp hi).elim (hn i) (hu i)

theorem Slotted.append (h : Slotted d cs d₁) (h' : Slotted d₁ ds d₂) : Slotted d (cs ++ ds) d₂ where
  vars := h.vars.trans h'.vars
  named := by
    intro x hx
    rcases h'.named x hx with hx | hx
    · exact h.named x hx
    · exact .inr hx
  granted := by
    intro x hx hd
    -- The part that brings the variable in grants its slot. The other part does not allocate it again,
    -- or stands in front and does not know it.
    by_cases h₁ : x ∈ d₁.vars
    · apply (h.granted x h₁ hd).append_right
      intro hm
      exact (h'.fresh x hm).2 h₁
    · apply (h'.granted x hx h₁).append_left
      · intro hm
        exact h₁ (h.fresh x hm).1
      · intro i hi hs
        exact h₁ (h.used i hi x hs)
  fresh := by
    intro x hm
    rcases List.mem_append.mp hm with hm | hm
    · obtain ⟨hx, hd⟩ := h.fresh x hm
      exact ⟨h'.vars.subset hx, hd⟩
    · obtain ⟨hx, h₁⟩ := h'.fresh x hm
      exact ⟨hx, fun hd => h₁ (h.vars.subset hd)⟩
  used := by
    intro i hi x hs
    rcases List.mem_append.mp hi with hi | hi
    · exact h'.vars.subset (h.used i hi x hs)
    · exact h'.used i hi x hs

theorem Slotted.plain (hv : d₁.vars = d.vars) (hc : ∀ x, .alloca (.var x) ∉ cs)
    (hu : ∀ i ∈ cs, ∀ x, i.slot? = some (.var x) → x ∈ d.vars) : Slotted d cs d₁ where
  vars := by rw [hv]
  named := by
    intro x hx
    exact .inl (hv ▸ hx)
  granted := by
    intro x hx hd
    exact absurd (hv ▸ hx) hd
  fresh := by
    intro x hm
    exact absurd hm (hc x)
  used := by
    intro i hi x hs
    exact hv ▸ hu i hi x hs

theorem Slotted.grant (hx : Token.isName x) (hd : x ∉ d.vars) :
    Slotted d [.alloca (.var x), .store (.literal 0) (.var x)] (d.grant x) where
  vars := List.prefix_append ..
  named := by
    intro y hy
    rcases List.mem_append.mp hy with hy | hy
    · exact .inl hy
    · rw [List.mem_singleton.mp hy]
      exact .inr hx
  granted := by
    intro y hy hn
    rcases List.mem_append.mp hy with hy | hy
    · exact absurd hy hn
    · rw [List.mem_singleton.mp hy]
      exact ⟨[], [], rfl, by simp, by simp, by simp⟩
  fresh := by
    intro y hm
    obtain rfl : y = x := by simpa using hm
    exact ⟨by simp [Draft.grant], hd⟩
  used := by
    intro i hi y hs
    simp only [List.mem_cons, List.not_mem_nil, or_false] at hi
    rcases hi with rfl | rfl
    · simp [Instr.slot?] at hs
    · obtain rfl : x = y := by simpa [Instr.slot?] using hs
      simp [Draft.grant]

end

theorem Evaluates.slotted {names : List String} {d d' : Draft} {ps : List Nat} {cs : List Instr}
    (h : Evaluates names d ps cs d') : Slotted d cs d' := by
  induction h with
  | start => exact .plain rfl (by simp) (by simp)
  | grant _ hx _ hm ih => exact ih.append (.grant hx hm)
  | load _ hx ih =>
    refine ih.append (.plain rfl (by simp) ?_)
    simpa [Instr.slot?] using hx
  | arith _ _ _ ih => exact ih.append (.plain rfl (by simp) (by simp [Instr.slot?]))
  | @reserve _ cs d' _ ih =>
    rw [← List.append_nil cs]
    exact ih.append (.plain rfl (by simp) (by simp))
  | select _ _ _ _ _ ih =>
    exact ih.append (.plain rfl (by simp [selectCode]) (by simp [selectCode, Instr.slot?]))

section
variable (c : Control) (d : Draft) (test : Nat) (v : Operand)

theorem Slotted.enter : Slotted d (c.enter (c.nextId d)) ((c.claim d).push (c.enter (c.nextId d))) := by
  apply Slotted.plain
  · simp
  · cases c <;> simp [Control.enter]
  · cases c <;> simp [Control.enter, Instr.slot?]

theorem Slotted.guard (id : Nat) :
    Slotted d (c.guard id test v) (d.takeTemp.push (c.guard id test v)) := by
  apply Slotted.plain
  · rfl
  · simp [Control.guard]
  · simp [Control.guard, Instr.slot?]

theorem Slotted.close (id : Nat) : Slotted d (c.close id) (d.push (c.close id)) := by
  apply Slotted.plain
  · rfl
  · simp [Control.close]
  · simp [Control.close, Instr.slot?]

end

theorem Emits.slotted {names : List String} {d d' : Draft} {cs : List Instr} (h : Emits names d cs d') :
    Slotted d cs d' := by
  induction h with
  | done => exact .plain rfl (by simp) (by simp)
  | @print d d₁ d₂ cs rest v he _ _ ih =>
    have hp : Slotted d₁ [.print v] (d₁.push [.print v]) := .plain rfl (by simp) (by simp [Instr.slot?])
    exact he.slotted.append (hp.append ih)
  | @assign d d₁ d₂ cs rest v x he _ hx _ ih =>
    have hs : Slotted d₁ [.store v (.var x)] (d₁.push [.store v (.var x)]) := by
      refine .plain rfl (by simp) ?_
      simpa [Instr.slot?] using hx
    exact he.slotted.append (hs.append ih)
  | control c he _ _ _ ihb ihr =>
    refine Slotted.append (.append (.append (.append ?_ (.guard c ..)) ihb) (.close c ..)) ihr
    exact (Slotted.enter c _).append he.slotted

/-! ## Programs -/

def prologue (xs : List String) : List Instr :=
  xs.flatMap fun x => [.alloca (.var x), .store (.literal 0) (.var x)]

theorem foldl_allocate_eq (xs : List String) :
    xs.foldl Draft.allocate {} = { vars := xs.eraseDups, code := prologue xs.eraseDups } := by
  induction xs using List.reverseRecOn with
  | nil => rfl
  | append_singleton xs x ih =>
    rw [List.foldl_concat, ih, List.eraseDups_append]
    by_cases hx : x ∈ xs
    · rw [Draft.allocate_of_mem (by simpa using hx)]
      simp [hx, List.removeAll]
    · rw [Draft.allocate_of_not_mem (by simpa using hx)]
      simp [hx, List.removeAll, Draft.grant, Draft.push, prologue, List.eraseDups_cons]

/-- The code of an accepted source is the slots of its names, in the order of their first appearance,
and behind them code that allocates no variable. -/
theorem hoisted_of_lowerSource {source : String} {code : List Instr}
    (h : lowerSource source = .ok code) :
    ∃ rest, code = prologue (namesOf (readLines source)).eraseDups ++ rest ∧
      ∀ x, .alloca (.var x) ∉ rest := by
  unfold lowerSource lowerProgram at h
  split at h
  · rename_i d hd
    cases h
    obtain ⟨rest, hr⟩ := lowerLines_emits (covers_namesOf _) hd
    obtain ⟨_, _, hsub⟩ := hoist_evaluates (readLines source)
    have hcode : (Draft.hoist {} (readLines source)).code =
        prologue (namesOf (readLines source)).eraseDups := by
      rw [Draft.hoist, foldl_allocate_eq]
      rfl
    refine ⟨rest, by rw [hr.code_eq, hcode], ?_⟩
    intro x hx
    obtain ⟨hnew, hold⟩ := hr.slotted.fresh x hx
    exact hold (hr.vars_eq hsub ▸ hnew)
  · cases h

theorem hoisted_countdown : ∃ rest : List Instr,
    lowerSource "while (n) \x7b n = n - m # k\n m = 1 \x7d" = .ok (prologue ["n", "m"] ++ rest) ∧
      ∀ x, .alloca (.var x) ∉ rest := by
  have hnames : (namesOf (readLines "while (n) \x7b n = n - m # k\n m = 1 \x7d")).eraseDups =
      ["n", "m"] := by cbv
  obtain ⟨code, h⟩ : ∃ code, lowerSource "while (n) \x7b n = n - m # k\n m = 1 \x7d" = .ok code :=
    ⟨_, by cbv⟩
  obtain ⟨rest, hcode, hrest⟩ := hoisted_of_lowerSource h
  rw [hnames] at hcode
  exact ⟨rest, hcode ▸ h, hrest⟩

end SlotCompiler
