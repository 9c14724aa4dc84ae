import SlotCompiler.Program.Basic
import SlotCompiler.Proofs.Execution

/-!
# Running the code of a program

`Realizes` says where the parts of a program are in a routine. The machine that stands in front of
such code does what the program does, however the run of the program ends: `Realizes.simulates`.
-/

namespace SlotCompiler

namespace Machine

structure Shows (m : Machine) (vars : List String) (p : Nat) (env : Env) (out : List Int32) : Prop where
  pc : m.pc = p
  vars : ∀ x ∈ vars, m.slots (.var x) = some (env x)
  printed : m.printed = out.map .value

/-- What the machine does where a program has the given outcome: it gets behind the code, it faults,
or it makes at least as many steps as the program had fuel. -/
def Matches (code : List Instr) (vars : List String) (q : Nat) (m : Machine) (fuel : Nat) :
    Program.Outcome → Prop
  | .finished env out => ∃ m', Reaches code m m' ∧ m'.Shows vars q env out
  | .fault out => ∃ n, run code n m = .fault (out.map .value)
  | .unfinished => ∃ n m', fuel ≤ n ∧ run code n m = .running m'

section
variable {code : List Instr} {vars : List String} {q fuel : Nat} {m m₁ m₂ : Machine}
  {o : Program.Outcome}

theorem Matches.of_reaches (h : Reaches code m m₁) (hm : Matches code vars q m₁ fuel o) :
    Matches code vars q m fuel o := by
  obtain ⟨n, hn⟩ := h
  cases o with
  | finished env out =>
    obtain ⟨m', hr, hs⟩ := hm
    exact ⟨m', .trans ⟨n, hn⟩ hr, hs⟩
  | fault out =>
    obtain ⟨k, hk⟩ := hm
    exact ⟨n + k, by rw [run_add hn, hk]⟩
  | unfinished =>
    obtain ⟨k, m', hle, hk⟩ := hm
    exact ⟨n + k, m', Nat.le_add_left_of_le hle, by rw [run_add hn, hk]⟩

theorem Matches.of_step (h : m.step code = .running m₁) (hm : Matches code vars q m₁ fuel o) :
    Matches code vars q m (fuel + 1) o := by
  cases o with
  | finished env out => exact of_reaches (o := .finished env out) (reaches_of_step h) hm
  | fault out => exact of_reaches (o := .fault out) (reaches_of_step h) hm
  | unfinished =>
    obtain ⟨k, m', hle, hk⟩ := hm
    exact ⟨k + 1, m', Nat.succ_le_succ hle, by rw [run_succ h, hk]⟩

theorem Matches.of_test {p t a : Nat} {env : Env} {out : List Int32} {w : Operand} {yes no : Label}
    {v : Int32} (hu : UniqueLabels code) (htest : code[p]? = some (.test t .nonzero w))
    (hbranch : code[p + 1]? = some (.branch t yes no)) (hm : m.Shows vars p env out)
    (hw : m.value? w = some v) (ha : code[a]? = some (.label (if v = 0 then no else yes)))
    (h : ∀ {m'}, m'.Shows vars (a + 1) env out → Matches code vars q m' fuel o) :
    Matches code vars q m (fuel + 1) o := by
  obtain ⟨rfl, hvars, hprinted⟩ := hm
  refine .of_step (step_test htest hw) ?_
  have hland := reaches_branch (m := (m.setFlag t (Test.nonzero.holds v)).next) (p := a) hu hbranch
    (setFlag_flags_self ..) (by rw [ha]; by_cases hv : v = 0 <;> simp [Test.holds, hv])
  have hlabel := reaches_label (m := { (m.setFlag t (Test.nonzero.holds v)).next with pc := a }) ha
  exact .of_reaches (hland.trans hlabel) (h ⟨rfl, hvars, hprinted⟩)

end

end Machine

/-! ## The parts of a program in a routine -/

def Computes (code : List Instr) (vars : List String) (p : Nat) (e : Expr) (w : Operand) (q : Nat) :
    Prop :=
  ∀ ⦃m : Machine⦄ ⦃env : Env⦄ ⦃out : List Int32⦄, m.Shows vars p env out →
    (∃ m' v, Machine.Reaches code m m' ∧ m'.Shows vars q env out ∧ m'.value? w = some v ∧
      e.eval? env = some v) ∨ Machine.Faults code m ∧ e.eval? env = none

def Enters (code : List Instr) (p q : Nat) : Prop :=
  p = q ∨ ∃ l, code[p]? = some (.jump l) ∧ code[p + 1]? = some (.label l) ∧ p + 2 = q

inductive Realizes (code : List Instr) (vars : List String) : Nat → Program → Nat → Prop
  | done (p : Nat) : Realizes code vars p .done p
  | assign {p q r : Nat} {x : String} {e : Expr} {w : Operand} {next : Program} :
    x ∈ vars → Computes code vars p e w q → code[q]? = some (.store w (.var x)) →
    Realizes code vars (q + 1) next r → Realizes code vars p (.assign x e next) r
  | print {p q r : Nat} {e : Expr} {w : Operand} {next : Program} :
    Computes code vars p e w q → code[q]? = some (.print w) →
    Realizes code vars (q + 1) next r → Realizes code vars p (.print e next) r
  | control {c : Control} {p₀ p q r s b t : Nat} {cond : Expr} {w : Operand} {yes no back : Label}
      {body next : Program} :
    Enters code p₀ p → Computes code vars p cond w q →
    code[q]? = some (.test t .nonzero w) → code[q + 1]? = some (.branch t yes no) →
    code[q + 2]? = some (.label yes) → Realizes code vars (q + 3) body r →
    code[r]? = some (.jump back) → code[b]? = some (.label back) →
    code[r + 1]? = some (.label no) → b + 1 = (if c = .loop then p else r + 2) →
    Realizes code vars (r + 2) next s →
    Realizes code vars p₀ (.control c cond body next) s

section
variable {code : List Instr} {vars : List String} {p q fuel : Nat} {P : Program} {m : Machine} {env : Env}
  {out : List Int32}

open Machine

theorem Enters.reaches (hu : UniqueLabels code) (h : Enters code p q) (hm : m.Shows vars p env out) :
    ∃ m', Reaches code m m' ∧ m'.Shows vars q env out := by
  obtain rfl | ⟨l, hj, hl, rfl⟩ := h
  · exact ⟨m, .refl code m, hm⟩
  · have hjump := reaches_jump (m := m) hu (by rw [hm.pc]; exact hj) hl
    have hlabel := reaches_label (m := { m with pc := p + 1 }) hl
    exact ⟨_, hjump.trans hlabel, rfl, hm.vars, hm.printed⟩

theorem Computes.matches {e : Expr} {w : Operand} {r : Nat} {f : Int32 → Program.Outcome}
    (he : Computes code vars p e w q) (hm : m.Shows vars p env out)
    (hf : ∀ {m' v}, m'.Shows vars q env out → m'.value? w = some v →
      Matches code vars r m' fuel (f v)) :
    Matches code vars r m fuel (match e.eval? env with
      | none => .fault out
      | some v => f v) := by
  obtain ⟨m', v, hr, hs, hw, hv⟩ | ⟨hfault, hv⟩ := he hm
  · rw [hv]
    exact .of_reaches hr (hf hs hw)
  · obtain ⟨n, hn⟩ := hfault
    rw [hv]
    exact ⟨n, hm.printed ▸ hn⟩

/-- The machine follows the program: one unit of fuel is at least one step. -/
theorem Realizes.simulates (hu : UniqueLabels code) (h : Realizes code vars p P q)
    (hm : m.Shows vars p env out) : Matches code vars q m fuel (P.run fuel env out) := by
  induction fuel generalizing p P q m env out with
  | zero => exact ⟨0, m, Nat.le_refl _, rfl⟩
  | succ fuel ih =>
    cases h with
    | done => exact ⟨m, .refl code m, hm⟩
    | @assign _ q r x e w next hx he hi hnext =>
      rw [Program.run]
      refine he.matches hm fun {m' v} hs hw => ?_
      refine .of_step (step_store (by rw [hs.pc]; exact hi) hw (hs.vars x hx)) (ih hnext ?_)
      refine ⟨by rw [next_pc, setSlot_pc, hs.pc], fun y hy => ?_, hs.printed⟩
      simp only [next_slots, setSlot, Slot.var.injEq]
      split
      · rfl
      · exact hs.vars y hy
    | @print _ q r e w next he hi hnext =>
      rw [Program.run]
      refine he.matches hm fun {m' v} hs hw => ?_
      refine .of_step (step_print (by rw [hs.pc]; exact hi) hw) (ih hnext ?_)
      refine ⟨by rw [next_pc]; exact congrArg (· + 1) hs.pc, hs.vars, ?_⟩
      simp [Machine.print, hs.printed]
    | @control c _ p q r s b t cond w yes no back body next henter he htest hbranch hyes hbody hjump hback
        hno hb hnext =>
      obtain ⟨m₀, hr₀, hs₀⟩ := henter.reaches hu hm
      rw [Program.run]
      refine .of_reaches hr₀ (he.matches hs₀ fun {m' v} hs hw => ?_)
      by_cases hv : v = 0
      · rw [if_pos hv]
        exact .of_test hu htest hbranch hs hw (by rw [if_pos hv]; exact hno) (ih hnext)
      · rw [if_neg hv]
        refine .of_test hu htest hbranch hs hw (by rw [if_neg hv]; exact hyes) fun {m₁} hs₁ => ?_
        have hbody' := ih hbody hs₁
        cases hrun : body.run fuel env out with
        | finished env' out' =>
          rw [hrun] at hbody'
          obtain ⟨m₂, hr₂, hs₂⟩ := hbody'
          have hj := reaches_jump (m := m₂) hu (by rw [hs₂.pc]; exact hjump) hback
          have hl := reaches_label (m := { m₂ with pc := b }) hback
          refine .of_reaches ((hr₂.trans hj).trans hl) (ih ?_ ⟨hb, hs₂.vars, hs₂.printed⟩)
          -- A loop is met again at its test, a branch is left.
          cases c with
          | branch => exact hnext
          | loop =>
            exact .control (.inl rfl) he htest hbranch hyes hbody hjump hback hno hb hnext
        | fault out' => rw [hrun] at hbody'; exact hbody'
        | unfinished => rw [hrun] at hbody'; exact hbody'

end

/-! ## Whole runs -/

namespace Machine

section
variable {code : List Instr} {vars : List String} {m : Machine} {P : Program} {env : Env}
  {out : List Int32} {o o' : Outcome} {n k : Nat}

theorem run_halted (h : run code n m = o) (ho : ∀ m', o ≠ .running m') (hk : n ≤ k) :
    run code k m = o := by
  induction n generalizing m k with
  | zero => exact absurd h.symm (ho m)
  | succ n ih =>
    obtain ⟨k, rfl⟩ : ∃ j, k = j + 1 := ⟨k - 1, by omega⟩
    rw [run] at h ⊢
    cases hs : m.step code with
    | running m' => rw [hs] at h; exact ih h (Nat.le_of_succ_le_succ hk)
    | done _ => rw [hs] at h; exact h
    | fault _ => rw [hs] at h; exact h
    | stuck => rw [hs] at h; exact h

theorem halted_unique (h : run code n m = o) (ho : ∀ m', o ≠ .running m') (h' : run code k m = o')
    (ho' : ∀ m', o' ≠ .running m') : o = o' := by
  rw [← run_halted h ho (Nat.le_max_left n k), ← run_halted h' ho' (Nat.le_max_right n k)]

theorem run_done_of_shows {m' : Machine} (h : Reaches code m m') (hs : m'.Shows vars code.length env out) :
    ∃ n, run code n m = .done (out.map .value) := by
  obtain ⟨n, hn⟩ := h
  refine ⟨n + 1, ?_⟩
  have hend : code[m'.pc]? = none := by rw [hs.pc]; exact List.getElem?_eq_none (Nat.le_refl _)
  rw [run_add hn, run, step, hend, ← hs.printed]

section
variable (hm : ∀ fuel, Matches code vars code.length m fuel (P.run fuel env out))
include hm

theorem outcome_of_halted (h : run code n m = o) (ho : ∀ m', o ≠ .running m') :
    (∃ env' out', P.run n env out = .finished env' out' ∧ o = .done (out'.map .value)) ∨
      ∃ out', P.run n env out = .fault out' ∧ o = .fault (out'.map .value) := by
  have hn := hm n
  cases hp : P.run n env out with
  | finished env' out' =>
    rw [hp] at hn
    obtain ⟨m', hr, hs⟩ := hn
    obtain ⟨k, hk⟩ := run_done_of_shows hr hs
    exact .inl ⟨env', out', rfl, halted_unique h ho hk nofun⟩
  | fault out' =>
    rw [hp] at hn
    obtain ⟨k, hk⟩ := hn
    exact .inr ⟨out', rfl, halted_unique h ho hk nofun⟩
  | unfinished =>
    -- Then the routine would still be running after `n` steps.
    rw [hp] at hn
    obtain ⟨k, m', hle, hk⟩ := hn
    rw [run_halted h ho hle] at hk
    exact absurd hk (ho m')

theorem finished_iff_done (printed : List Int32) :
    (∃ fuel env', P.run fuel env out = .finished env' printed) ↔
      ∃ fuel, run code fuel m = .done (printed.map .value) := by
  constructor
  · intro ⟨fuel, env', hp⟩
    have hfuel := hm fuel
    rw [hp] at hfuel
    obtain ⟨m', hr, hs⟩ := hfuel
    exact run_done_of_shows hr hs
  · intro ⟨n, hn⟩
    obtain ⟨env', out', hp, ho⟩ | ⟨out', _, ho⟩ := outcome_of_halted hm hn nofun
    · injection ho with ho
      rw [List.map_inj_right (fun _ _ => Printed.value.inj)] at ho
      exact ⟨n, env', ho ▸ hp⟩
    · cases ho

theorem fault_iff_fault (printed : List Int32) :
    (∃ fuel, P.run fuel env out = .fault printed) ↔
      ∃ fuel, run code fuel m = .fault (printed.map .value) := by
  constructor
  · intro ⟨fuel, hp⟩
    have hfuel := hm fuel
    rw [hp] at hfuel
    exact hfuel
  · intro ⟨n, hn⟩
    obtain ⟨env', out', _, ho⟩ | ⟨out', hp, ho⟩ := outcome_of_halted hm hn nofun
    · cases ho
    · injection ho with ho
      rw [List.map_inj_right (fun _ _ => Printed.value.inj)] at ho
      exact ⟨n, ho ▸ hp⟩

theorem run_ne_stuck (n : Nat) : run code n m ≠ .stuck := by
  intro hn
  obtain ⟨_, _, _, ho⟩ | ⟨_, _, ho⟩ := outcome_of_halted hm hn nofun
  · cases ho
  · cases ho

end

end

end Machine

end SlotCompiler
