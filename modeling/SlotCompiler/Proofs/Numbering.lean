import SlotCompiler.Proofs.Linkage

/-!
# Ids without gaps

Every temporary that is handed out is defined, and once. The constructs of each kind are numbered in
the order of the code: by the body of an `if`, the test of a `while`, the end of a choice.
`dense_of_lowerSource` says so of every accepted source.
-/

namespace SlotCompiler

/-! ## Temporaries -/

/-- The temporary that an instruction defines: a value, a flag or a scratch slot. -/
def Instr.defines? : Instr → Option Nat
  | .load t _ | .arith t _ _ _ | .test t _ _ | .alloca (.temp t) => some t
  | _ => none

def definedTemps (code : List Instr) : List Nat := code.filterMap Instr.defines?

theorem definedTemps_append (cs ds : List Instr) :
    definedTemps (cs ++ ds) = definedTemps cs ++ definedTemps ds := List.filterMap_append ..

/-- The temporaries handed out between the two drafts are those that the code defines and those of
`ps`, each once. -/
def Numbered (d : Draft) (ps : List Nat) (cs : List Instr) (d' : Draft) : Prop :=
  ∃ n, d'.temps = d.temps + n ∧ (definedTemps cs ++ ps).Perm (List.range' (d.temps + 1) n)

namespace Numbered
variable {d d₁ d₂ : Draft} {ps qs : List Nat} {cs ds : List Instr} {t : Nat}

theorem append (h : Numbered d ps cs d₁) (h' : Numbered d₁ qs ds d₂) :
    Numbered d (ps ++ qs) (cs ++ ds) d₂ := by
  obtain ⟨m, hm, hp⟩ := h
  obtain ⟨n, hn, hq⟩ := h'
  refine ⟨m + n, by omega, ?_⟩
  have hswap : (definedTemps (cs ++ ds) ++ (ps ++ qs)).Perm
      (definedTemps cs ++ ps ++ (definedTemps ds ++ qs)) := by
    rw [definedTemps_append, List.append_assoc, List.append_assoc]
    exact (List.perm_append_comm_assoc ..).append_left _
  have hrange : List.range' (d.temps + 1) m ++ List.range' (d₁.temps + 1) n =
      List.range' (d.temps + 1) (m + n) := by
    rw [← List.range'_append_1, hm, Nat.add_right_comm]
  exact hrange ▸ hswap.trans (hp.append hq)

theorem reorder (h : Numbered d ps cs d₁) (hp : qs.Perm ps) : Numbered d qs cs d₁ := by
  obtain ⟨n, hn, hm⟩ := h
  exact ⟨n, hn, (hp.append_left _).trans hm⟩

/-- A temporary that was set aside gets its definition. -/
theorem settle (h : Numbered d (t :: ps) cs d₁) : Numbered d ps (cs ++ [.alloca (.temp t)]) d₁ := by
  obtain ⟨n, hn, hm⟩ := h
  refine ⟨n, hn, ?_⟩
  rw [definedTemps_append, List.append_assoc]
  exact hm

theorem plain (ht : d₁.temps = d.temps) (hc : definedTemps cs = []) : Numbered d [] cs d₁ :=
  ⟨0, ht, by simp [hc]⟩

theorem one (ht : d₁.temps = d.temps + 1) (hc : definedTemps cs = [d.temps + 1]) :
    Numbered d [] cs d₁ :=
  ⟨1, ht, by simp [hc]⟩

theorem reserve (d : Draft) : Numbered d [d.temps + 1] [] d.takeTemp := ⟨1, rfl, by simp [definedTemps]⟩

theorem select {dest : Nat} {s z p n : Operand} (h : Numbered d (dest :: ps) cs d₁) :
    Numbered d ps (cs ++ selectCode (.temp dest) d₁.chooses (d₁.temps + 1) (d₁.temps + 2)
      (d₁.temps + 3) s z p n) (d₁.select dest s z p n) := by
  have hrest : Numbered d₁ [] (selectCode (.temp dest) d₁.chooses (d₁.temps + 1) (d₁.temps + 2)
      (d₁.temps + 3) s z p n).tail (d₁.select dest s z p n) := ⟨3, rfl, .refl _⟩
  have := h.settle.append hrest
  rw [List.append_nil, List.append_assoc] at this
  exact this

end Numbered

theorem Evaluates.numbered {names : List String} {d d' : Draft} {ps : List Nat} {cs : List Instr}
    (h : Evaluates names d ps cs d') : Numbered d ps cs d' := by
  induction h with
  | start => exact .plain rfl rfl
  | @grant ps _ d' x _ _ _ _ ih =>
    rw [← List.append_nil ps]
    exact ih.append (.plain rfl rfl)
  | @load ps _ d' x _ _ ih =>
    rw [← List.append_nil ps]
    exact ih.append (.one rfl rfl)
  | @arith ps _ d' a l r _ _ _ ih =>
    rw [← List.append_nil ps]
    exact ih.append (.one rfl rfl)
  | @reserve ps cs d' _ ih =>
    have hall := ih.append (.reserve d')
    rw [List.append_nil] at hall
    exact hall.reorder (List.perm_append_singleton ..).symm
  | select _ _ _ _ _ ih => exact ih.select

section
variable (c : Control) (d : Draft) (v : Operand)

theorem Numbered.enter :
    Numbered d [] (c.enter (c.nextId d)) ((c.claim d).push (c.enter (c.nextId d))) := by
  cases c <;> exact .plain rfl rfl

theorem Numbered.guard (id : Nat) : Numbered d [] (c.guard id (d.temps + 1) v)
    (d.takeTemp.push (c.guard id (d.temps + 1) v)) :=
  .one rfl rfl

theorem Numbered.close (id : Nat) : Numbered d [] (c.close id) (d.push (c.close id)) := .plain rfl rfl

end

theorem Emits.numbered {names : List String} {d d' : Draft} {cs : List Instr}
    (h : Emits names d cs d') : Numbered d [] cs d' := by
  induction h with
  | done => exact .plain rfl rfl
  | @print d d₁ d₂ cs rest v he _ _ ih =>
    have hp : Numbered d₁ [] [.print v] (d₁.push [.print v]) := .plain rfl rfl
    exact he.numbered.append (hp.append ih)
  | @assign d d₁ d₂ cs rest v x he _ _ _ ih =>
    have hs : Numbered d₁ [] [.store v (.var x)] (d₁.push [.store v (.var x)]) := .plain rfl rfl
    exact he.numbered.append (hs.append ih)
  | @control d d₁ d₂ d₃ cs body rest v c he _ _ _ ihb ihr =>
    have hhead := ((Numbered.enter c d).append he.numbered).append (.guard c d₁ v (c.nextId d))
    exact ((hhead.append ihb).append (.close c d₂ (c.nextId d))).append ihr

/-! ## Labels -/

/-- The three kinds of constructs, each with ids of its own. -/
inductive Series
  | ifs | whiles | chooses
  deriving DecidableEq, Repr

namespace Series

def next : Series → Draft → Nat
  | .ifs, d => d.ifs
  | .whiles, d => d.whiles
  | .chooses, d => d.chooses

/-- The label that goes by the order of the ids. -/
def mark? : Series → Instr → Option Nat
  | .ifs, .label (.ifBody id) => some id
  | .whiles, .label (.whileTest id) => some id
  | .chooses, .label (.chooseEnd id) => some id
  | _, _ => none

def others : Series → Nat → List Label
  | .ifs, id => [.ifEnd id]
  | .whiles, id => [.whileBody id, .whileEnd id]
  | .chooses, id => [.chooseArm 0 id, .chooseArm 1 id, .chooseArm 2 id, .chooseArm 3 id]

def marks (s : Series) (code : List Instr) : List Nat := code.filterMap s.mark?

theorem marks_append (s : Series) (cs ds : List Instr) : s.marks (cs ++ ds) = s.marks cs ++ s.marks ds :=
  List.filterMap_append ..

/-- The marks in the code are the ids handed out between the two drafts, in order. -/
def Counts (s : Series) (d : Draft) (cs : List Instr) (d' : Draft) : Prop :=
  ∃ n, s.next d' = s.next d + n ∧ s.marks cs = List.range' (s.next d) n

variable {s : Series} {d d₁ d₂ : Draft} {cs ds : List Instr}

theorem Counts.append (h : s.Counts d cs d₁) (h' : s.Counts d₁ ds d₂) : s.Counts d (cs ++ ds) d₂ := by
  obtain ⟨m, hm, hc⟩ := h
  obtain ⟨n, hn, hd⟩ := h'
  refine ⟨m + n, by omega, ?_⟩
  rw [marks_append, hc, hd, hm, List.range'_append_1]

theorem Counts.plain (hs : s.next d₁ = s.next d) (hc : s.marks cs = []) : s.Counts d cs d₁ :=
  ⟨0, hs, hc⟩

theorem Counts.select (d : Draft) (dest : Nat) (a z p n : Operand) :
    s.Counts d (selectCode (.temp dest) d.chooses (d.temps + 1) (d.temps + 2) (d.temps + 3) a z p n)
      (d.select dest a z p n) := by
  cases s with
  | ifs => exact .plain rfl rfl
  | whiles => exact .plain rfl rfl
  | chooses => exact ⟨1, rfl, rfl⟩

end Series

theorem Evaluates.ifs_eq {names : List String} {d d' : Draft} {ps : List Nat} {cs : List Instr}
    (h : Evaluates names d ps cs d') : d'.ifs = d.ifs := by
  induction h with
  | start => rfl
  | grant _ _ _ _ ih => exact ih
  | load _ _ ih => exact ih
  | arith _ _ _ ih => exact ih
  | reserve _ ih => exact ih
  | select _ _ _ _ _ ih => exact ih

theorem Evaluates.counts {names : List String} {d d' : Draft} {ps : List Nat} {cs : List Instr}
    (h : Evaluates names d ps cs d') (s : Series) : s.Counts d cs d' := by
  induction h with
  | start => exact .plain rfl rfl
  | grant _ _ _ _ ih =>
    refine ih.append (.plain ?_ ?_)
    · cases s <;> rfl
    · cases s <;> rfl
  | load _ _ ih =>
    refine ih.append (.plain ?_ ?_)
    · cases s <;> rfl
    · cases s <;> rfl
  | arith _ _ _ ih =>
    refine ih.append (.plain ?_ ?_)
    · cases s <;> rfl
    · cases s <;> rfl
  | reserve _ ih =>
    obtain ⟨n, hn, hm⟩ := ih
    refine ⟨n, ?_, hm⟩
    rw [← hn]
    cases s <;> rfl
  | select _ _ _ _ _ ih => exact ih.append (.select ..)

section
variable {s : Series} {c : Control} {d d₁ : Draft} {cs : List Instr} {names : List String}

theorem Series.counts_enter (hs : ¬(c = .branch ∧ s = .ifs)) (d : Draft) :
    s.Counts d (c.enter (c.nextId d)) ((c.claim d).push (c.enter (c.nextId d))) := by
  cases c with
  | loop =>
    cases s with
    | ifs => exact .plain rfl rfl
    | whiles => exact ⟨1, rfl, rfl⟩
    | chooses => exact .plain rfl rfl
  | branch =>
    cases s with
    | ifs => exact absurd ⟨rfl, rfl⟩ hs
    | whiles => exact .plain rfl rfl
    | chooses => exact .plain rfl rfl

theorem Series.counts_guard (hs : ¬(c = .branch ∧ s = .ifs)) (id test : Nat) (v : Operand) (d : Draft) :
    s.Counts d (c.guard id test v) (d.takeTemp.push (c.guard id test v)) := by
  cases s with
  | ifs =>
    cases c with
    | loop => exact .plain rfl rfl
    | branch => exact absurd ⟨rfl, rfl⟩ hs
  | whiles => cases c <;> exact .plain rfl rfl
  | chooses => cases c <;> exact .plain rfl rfl

/-- The id of a statement is marked before any id that is handed out later. -/
theorem Series.counts_head (he : Evaluates names ((c.claim d).push (c.enter (c.nextId d))) [] cs d₁)
    (test : Nat) (v : Operand) :
    s.Counts d (c.enter (c.nextId d) ++ cs ++ c.guard (c.nextId d) test v)
      (d₁.takeTemp.push (c.guard (c.nextId d) test v)) := by
  by_cases hs : c = .branch ∧ s = .ifs
  · obtain ⟨rfl, rfl⟩ := hs
    -- The mark stands behind the condition, but no condition has a statement inside.
    obtain ⟨n, hn, hm⟩ := he.counts .ifs
    have hifs := he.ifs_eq
    obtain rfl : n = 0 := by
      simp only [next, Control.claim, Draft.push_ifs] at hn hifs
      omega
    refine ⟨1, hifs, ?_⟩
    rw [marks_append, marks_append, hm]
    rfl
  · exact ((counts_enter hs d).append (he.counts s)).append (counts_guard hs ..)

end

theorem Emits.counts {names : List String} {d d' : Draft} {cs : List Instr} (h : Emits names d cs d')
    (s : Series) : s.Counts d cs d' := by
  induction h with
  | done => exact .plain rfl rfl
  | @print d d₁ d₂ cs rest v he _ _ ih =>
    have hp : s.Counts d₁ [.print v] (d₁.push [.print v]) := by
      cases s <;> exact .plain rfl rfl
    exact (he.counts s).append (hp.append ih)
  | @assign d d₁ d₂ cs rest v x he _ _ _ ih =>
    have hs : s.Counts d₁ [.store v (.var x)] (d₁.push [.store v (.var x)]) := by
      cases s <;> exact .plain rfl rfl
    exact (he.counts s).append (hs.append ih)
  | @control d d₁ d₂ d₃ cs body rest v c he _ _ _ ihb ihr =>
    have hclose : s.Counts d₂ (c.close (c.nextId d)) (d₂.push (c.close (c.nextId d))) := by
      cases s <;> cases c <;> exact .plain rfl rfl
    exact (((Series.counts_head he (d₁.temps + 1) v).append ihb).append hclose).append ihr

/-! ## Programs -/

/-- All ids of the code are handed out without gaps, used once and in order. -/
structure Dense (code : List Instr) : Prop where
  temps : ∃ k, (definedTemps code).Perm (List.range' 1 k)
  series (s : Series) : ∃ n, s.marks code = List.range n ∧
    ∀ id, ∀ l ∈ s.others id, code.count (.label l) = if id < n then 1 else 0

theorem Series.issued_iff {s : Series} {id : Nat} {l : Label} (hl : l ∈ s.others id) (d : Draft) :
    l.Issued {} d ↔ id < s.next d := by
  cases s with
  | ifs =>
    obtain rfl : l = .ifEnd id := by simpa [others] using hl
    simp [Label.Issued, next]
  | whiles =>
    simp only [others, List.mem_cons, List.not_mem_nil, or_false] at hl
    rcases hl with rfl | rfl <;> simp [Label.Issued, next]
  | chooses =>
    simp only [others, List.mem_cons, List.not_mem_nil, or_false] at hl
    rcases hl with rfl | rfl | rfl | rfl <;> simp [Label.Issued, next]

theorem dense_of_lowerSource {source : String} {code : List Instr}
    (h : lowerSource source = .ok code) : Dense code := by
  obtain ⟨_, _, d, _, _, hc, _, hd, rfl⟩ := emits_of_lowerProgram h
  constructor
  · obtain ⟨k, _, hk⟩ := hc.numbered.append hd.numbered
    rw [List.append_nil, List.append_nil] at hk
    exact ⟨k, hk⟩
  · intro s
    obtain ⟨n, hn, hm⟩ := (hc.counts s).append (hd.counts s)
    have hzero : s.next {} = 0 := by cases s <;> rfl
    rw [hzero, Nat.zero_add] at hn
    refine ⟨n, by rw [hm, hzero, List.range_eq_range'], ?_⟩
    intro id l hl
    rw [(hc.fragment.append hd.fragment).defs l]
    by_cases hid : id < n
    · rw [if_pos hid, if_pos ((Series.issued_iff hl d).mpr (hn ▸ hid))]
    · rw [if_neg hid, if_neg fun hi => hid (hn ▸ (Series.issued_iff hl d).mp hi)]

theorem dense_nested_choice : ∃ code,
    lowerSource "if (choose(1, 2, choose(a, 3, 4, 5), 6)) \x7b if (b) \x7b a = 1 \x7d \x7d" = .ok code ∧
      Dense code := by
  obtain ⟨code, h⟩ : ∃ code, lowerSource
      "if (choose(1, 2, choose(a, 3, 4, 5), 6)) \x7b if (b) \x7b a = 1 \x7d \x7d" = .ok code :=
    ⟨_, by cbv⟩
  exact ⟨code, h, dense_of_lowerSource h⟩

end SlotCompiler
