import SlotCompiler.Proofs.Linkage
import SlotCompiler.Proofs.Spelling

/-!
# Running the code of an expression

The machine that stands in front of the code of an expression gets behind it with the value of the
expression, or faults just if there is no value. On its way it keeps the variables and all
temporaries that were handed out before: `Expr.lower_delivers`.
-/

namespace SlotCompiler

namespace Machine

/-! ## Runs -/

section
variable {code : List Instr} {m m₁ m₂ : Machine} {n : Nat} {o : Outcome}

theorem run_succ (h : m.step code = .running m₁) (n : Nat) : run code (n + 1) m = run code n m₁ := by
  rw [run, h]

theorem run_add (h : run code n m = .running m₁) (k : Nat) : run code (n + k) m = run code k m₁ := by
  induction n generalizing m with
  | zero => cases h; rw [Nat.zero_add]
  | succ n ih =>
    rw [run] at h
    rw [Nat.add_right_comm, run]
    cases hs : m.step code with
    | running m' => rw [hs] at h; exact ih h
    | done _ => rw [hs] at h; cases h
    | fault _ => rw [hs] at h; cases h
    | stuck => rw [hs] at h; cases h

def Reaches (code : List Instr) (m m' : Machine) : Prop := ∃ n, run code n m = .running m'

/-- The machine stops in a fault, with what was printed before. -/
def Faults (code : List Instr) (m : Machine) : Prop := ∃ n, run code n m = .fault m.printed

theorem Reaches.refl (code : List Instr) (m : Machine) : Reaches code m m := ⟨0, rfl⟩

theorem Reaches.trans (h : Reaches code m m₁) (h' : Reaches code m₁ m₂) : Reaches code m m₂ := by
  obtain ⟨n, hn⟩ := h
  obtain ⟨k, hk⟩ := h'
  exact ⟨n + k, by rw [run_add hn, hk]⟩

theorem reaches_of_step (h : m.step code = .running m₁) : Reaches code m m₁ :=
  ⟨1, by rw [run_succ h]; rfl⟩

theorem Faults.of_reaches (h : Reaches code m m₁) (hp : m₁.printed = m.printed) (h' : Faults code m₁) :
    Faults code m := by
  obtain ⟨n, hn⟩ := h
  obtain ⟨k, hk⟩ := h'
  exact ⟨n + k, by rw [run_add hn, hk, hp]⟩

end

/-! ## Fields -/

section
variable (m : Machine) (id : Nat) (v : Int32) (b : Bool) (slot : Slot)

@[simp] theorem next_pc : m.next.pc = m.pc + 1 := rfl

@[simp] theorem next_slots : m.next.slots = m.slots := rfl

@[simp] theorem next_printed : m.next.printed = m.printed := rfl

@[simp] theorem setValue_pc : (m.setValue id v).pc = m.pc := rfl

@[simp] theorem setFlag_flags_self : (m.setFlag id b).flags id = some b := if_pos rfl

@[simp] theorem setSlot_pc : (m.setSlot slot v).pc = m.pc := rfl

@[simp] theorem setSlot_slots_self : (m.setSlot slot v).slots slot = some v := if_pos rfl

@[simp] theorem setValue_values_self : (m.setValue id v).values id = some v := if_pos rfl

theorem value?_congr {m m' : Machine} (h : m'.values = m.values) (w : Operand) :
    m'.value? w = m.value? w := by
  cases w with
  | literal n => rfl
  | temp t => exact congrFun h t

end

/-! ## Single instructions -/

/-- No label is defined twice. -/
def UniqueLabels (code : List Instr) : Prop := ∀ l, code.count (.label l) ≤ 1

section
variable {code : List Instr} {m : Machine}

theorem step_eq {i : Instr} (h : code[m.pc]? = some i) : m.step code = m.exec code i := by
  rw [step, h]

theorem reaches_alloca {slot : Slot} (h : code[m.pc]? = some (.alloca slot)) :
    Reaches code m (m.setSlot slot 0).next :=
  reaches_of_step (step_eq h)

theorem step_store {w : Operand} {slot : Slot} {v old : Int32}
    (h : code[m.pc]? = some (.store w slot)) (hw : m.value? w = some v) (hs : m.slots slot = some old) :
    m.step code = .running (m.setSlot slot v).next := by
  rw [step_eq h]
  simp [exec, hw, hs]

theorem reaches_load {dest : Nat} {slot : Slot} {v : Int32} (h : code[m.pc]? = some (.load dest slot))
    (hs : m.slots slot = some v) : Reaches code m (m.setValue dest v).next :=
  reaches_of_step (by rw [step_eq h]; simp [exec, hs])

theorem step_test {dest : Nat} {kind : Test} {w : Operand} {v : Int32}
    (h : code[m.pc]? = some (.test dest kind w)) (hw : m.value? w = some v) :
    m.step code = .running (m.setFlag dest (kind.holds v)).next := by
  rw [step_eq h]
  simp [exec, hw]

theorem reaches_label {l : Label} (h : code[m.pc]? = some (.label l)) : Reaches code m m.next :=
  reaches_of_step (step_eq h)

theorem step_print {w : Operand} {v : Int32} (h : code[m.pc]? = some (.print w))
    (hw : m.value? w = some v) : m.step code = .running (m.print (.value v)).next := by
  rw [step_eq h]
  simp [exec, hw]

theorem reaches_arith {dest : Nat} {a : Arith} {l r : Operand} {x y z : Int32}
    (h : code[m.pc]? = some (.arith dest a l r)) (hl : m.value? l = some x) (hr : m.value? r = some y)
    (hz : a.apply? x y = some z) : Reaches code m (m.setValue dest z).next :=
  reaches_of_step (by rw [step_eq h]; simp [exec, hl, hr, hz])

theorem faults_arith {dest : Nat} {a : Arith} {l r : Operand} {x y : Int32}
    (h : code[m.pc]? = some (.arith dest a l r)) (hl : m.value? l = some x) (hr : m.value? r = some y)
    (hz : a.apply? x y = none) : Faults code m :=
  ⟨1, by rw [run, step_eq h]; simp [exec, hl, hr, hz]⟩

theorem getElem?_of_idxOf? {i : Instr} {q : Nat} (h : code.idxOf? i = some q) : code[q]? = some i := by
  obtain ⟨hlt, he, _⟩ := List.findIdx?_eq_some_iff_getElem.mp h
  rw [List.getElem?_eq_getElem hlt, eq_of_beq he]

theorem jump_eq (hu : UniqueLabels code) {l : Label} {p : Nat} (hl : code[p]? = some (.label l))
    (m : Machine) : m.jump code l = .running { m with pc := p } := by
  have hm : .label l ∈ code := List.mem_of_getElem? hl
  cases hi : code.idxOf? (.label l) with
  | none => exact absurd hm (List.idxOf?_eq_none_iff.mp hi)
  | some q => rw [jump, hi, eq_of_count_le_one (hu l) (getElem?_of_idxOf? hi) hl]

theorem reaches_jump (hu : UniqueLabels code) {l : Label} {p : Nat}
    (h : code[m.pc]? = some (.jump l)) (hl : code[p]? = some (.label l)) :
    Reaches code m { m with pc := p } :=
  reaches_of_step (by rw [step_eq h, exec, jump_eq hu hl])

theorem reaches_branch (hu : UniqueLabels code) {t p : Nat} {yes no : Label} {b : Bool}
    (h : code[m.pc]? = some (.branch t yes no)) (hf : m.flags t = some b)
    (hl : code[p]? = some (.label (if b then yes else no))) : Reaches code m { m with pc := p } := by
  refine reaches_of_step ?_
  rw [step_eq h]
  simp only [exec, hf]
  exact jump_eq hu hl m

theorem reaches_test_branch (hu : UniqueLabels code) {t q p : Nat} {kind : Test} {w : Operand}
    {yes no : Label} {v : Int32} {b : Bool} (h₀ : code[q]? = some (.test t kind w))
    (h₁ : code[q + 1]? = some (.branch t yes no)) (hm : m.pc = q) (hw : m.value? w = some v)
    (hb : kind.holds v = b) (hl : code[p]? = some (.label (if b then yes else no))) :
    Reaches code m { m.setFlag t b with pc := p } := by
  subst hm hb
  have hbranch := reaches_branch (m := (m.setFlag t (kind.holds v)).next) hu h₁ (setFlag_flags_self ..) hl
  exact (reaches_of_step (step_test h₀ hw)).trans hbranch

end

end Machine

/-! ## Machines and drafts -/

/-- The draft has grown, without a new variable. -/
structure Draft.Extends (d d' : Draft) : Prop where
  vars : d'.vars = d.vars
  temps : d.temps ≤ d'.temps
  code : d.code <+: d'.code

theorem Draft.Extends.refl (d : Draft) : d.Extends d := ⟨rfl, Nat.le_refl _, List.prefix_rfl⟩

theorem Draft.Extends.trans {d d₁ d₂ : Draft} (h : d.Extends d₁) (h' : d₁.Extends d₂) : d.Extends d₂ :=
  ⟨h'.vars.trans h.vars, Nat.le_trans h.temps h'.temps, h.code.trans h'.code⟩

theorem getElem?_of_isPrefix {code cs ds : List Instr} (h : ds ++ cs <+: code) {j : Nat} {i : Instr}
    (hj : cs[j]? = some i) : code[ds.length + j]? = some i := by
  obtain ⟨rest, rfl⟩ := h
  have hlt := (List.getElem?_eq_some_iff.mp hj).1
  rw [List.append_assoc, List.getElem?_append_right (Nat.le_add_right ..), Nat.add_sub_cancel_left,
    List.getElem?_append_left hlt, hj]

namespace Machine

/-- The machine stands behind the code of the draft, and the variables are as in `env`. -/
structure At (m : Machine) (d : Draft) (env : Env) : Prop where
  pc : m.pc = d.code.length
  vars : ∀ x ∈ d.vars, m.slots (.var x) = some (env x)

/-- Nothing is lost of the first `k` temporaries, of the variables and of what was printed. -/
structure Keeps (m : Machine) (k : Nat) (m' : Machine) : Prop where
  values : ∀ t ≤ k, m'.values t = m.values t
  vars : ∀ x, m'.slots (.var x) = m.slots (.var x)
  printed : m'.printed = m.printed

/-- The machine gets from behind one draft to behind another. -/
structure Arrives (m : Machine) (code : List Instr) (env : Env) (d d' : Draft) (m' : Machine) :
    Prop where
  reaches : Reaches code m m'
  stands : m'.At d' env
  keeps : m.Keeps d.temps m'

section
variable {code : List Instr} {env : Env} {d d₁ d₂ : Draft} {m m₁ m₂ : Machine}

theorem Keeps.trans {k k' : Nat} (h : m.Keeps k m₁) (h' : m₁.Keeps k' m₂) (hk : k ≤ k') :
    m.Keeps k m₂ where
  values t ht := (h'.values t (Nat.le_trans ht hk)).trans (h.values t ht)
  vars x := (h'.vars x).trans (h.vars x)
  printed := h'.printed.trans h.printed

theorem Arrives.refl (h : m.At d env) : m.Arrives code env d d m :=
  ⟨.refl code m, h, fun _ _ => rfl, fun _ => rfl, rfl⟩

theorem Arrives.trans (h : m.Arrives code env d d₁ m₁) (h' : m₁.Arrives code env d₁ d₂ m₂)
    (hd : d.temps ≤ d₁.temps) : m.Arrives code env d d₂ m₂ :=
  ⟨h.reaches.trans h'.reaches, h'.stands, h.keeps.trans h'.keeps hd⟩

theorem Arrives.faults (h : m.Arrives code env d d₁ m₁) (hf : Faults code m₁) : Faults code m :=
  hf.of_reaches h.reaches h.keeps.printed

theorem arrives_setValue {i : Instr} {v : Int32} (hm : m.At d env)
    (h : Reaches code m (m.setValue (d.temps + 1) v).next) :
    m.Arrives code env d (d.takeTemp.push [i]) (m.setValue (d.temps + 1) v).next := by
  refine ⟨h, ⟨?_, hm.vars⟩, fun t ht => ?_, fun _ => rfl, rfl⟩
  · simp [hm.pc, Draft.takeTemp]
  · exact if_neg (Nat.ne_of_lt (Nat.lt_succ_of_le ht))

end

/-! ## Choices -/

section
variable {code : List Instr} {env : Env} {d : Draft} {m : Machine} {dest : Nat} {s z p n : Operand}
  {sv zv pv nv : Int32}

theorem reaches_arm (hu : UniqueLabels code) {l l' : Label} {w : Operand} {v old : Int32} {q e : Nat}
    (h₀ : code[q]? = some (.label l)) (h₁ : code[q + 1]? = some (.store w (.temp dest)))
    (h₂ : code[q + 2]? = some (.jump l')) (he : code[e]? = some (.label l')) (hm : m.pc = q)
    (hw : m.value? w = some v) (hs : m.slots (.temp dest) = some old) :
    Reaches code m { m.setSlot (.temp dest) v with pc := e } := by
  subst hm
  have hlabel := reaches_label h₀
  have hstore := reaches_of_step (step_store (m := m.next) h₁ hw hs)
  exact (hlabel.trans hstore).trans (reaches_jump hu h₂ he)

theorem select_reaches (hu : UniqueLabels code) {id t : Nat}
    (hc : ∀ {j : Nat} {i : Instr},
      (selectCode (.temp dest) id (t + 1) (t + 2) (t + 3) s z p n)[j]? = some i →
      code[m.pc + j]? = some i)
    (hs : m.value? s = some sv) (hz : m.value? z = some zv) (hp : m.value? p = some pv)
    (hn : m.value? n = some nv) : ∃ m₁, Reaches code m m₁ ∧ m₁.pc = m.pc + 15 ∧
      m₁.slots (.temp dest) = some (if sv = 0 then zv else if 0 < sv then pv else nv) ∧
      m₁.values = m.values ∧ (∀ x, m₁.slots (.var x) = m.slots (.var x)) ∧ m₁.printed = m.printed := by
  have halloca := reaches_alloca (hc (j := 0) rfl)
  have hend := hc (j := 15) rfl
  have value {m' : Machine} (hm' : m'.values = m.values) {w : Operand} {v : Int32}
      (hw : m.value? w = some v) : m'.value? w = some v := (value?_congr hm' w).trans hw
  have var {x : String} : Slot.var x ≠ .temp dest := nofun
  by_cases hzero : sv = 0
  · have hb : Test.zero.holds sv = true := by simp [Test.holds, hzero]
    have h₁ := reaches_test_branch hu (hc (j := 1) rfl) (hc (j := 2) rfl)
      (m := (m.setSlot (.temp dest) 0).next) rfl (value rfl hs) hb (hc (j := 3) rfl)
    have h₂ := reaches_arm hu (hc (j := 3) rfl) (hc (j := 4) rfl) (hc (j := 5) rfl) hend
      (m := { (m.setSlot (.temp dest) 0).next.setFlag (t + 1) true with pc := m.pc + 3 }) rfl
      (value rfl hz) (setSlot_slots_self ..)
    refine ⟨_, (halloca.trans h₁).trans h₂, rfl, ?_, rfl, fun x => ?_, rfl⟩
    · simp [hzero]
    · simp [setSlot, setFlag, next, var]
  · have hb : Test.zero.holds sv = false := by simp [Test.holds, hzero]
    have h₁ := reaches_test_branch hu (hc (j := 1) rfl) (hc (j := 2) rfl)
      (m := (m.setSlot (.temp dest) 0).next) rfl (value rfl hs) hb (hc (j := 6) rfl)
    let m₁ := { (m.setSlot (.temp dest) 0).next.setFlag (t + 1) false with pc := m.pc + 6 }
    have h₂ := (halloca.trans h₁).trans (reaches_label (m := m₁) (hc (j := 6) rfl))
    by_cases hpos : 0 < sv
    · have hb : Test.positive.holds sv = true := by simp [Test.holds, hpos]
      have h₃ := reaches_test_branch hu (hc (j := 7) rfl) (hc (j := 8) rfl) (m := m₁.next) rfl
        (value rfl hs) hb (hc (j := 9) rfl)
      have h₄ := reaches_arm hu (hc (j := 9) rfl) (hc (j := 10) rfl) (hc (j := 11) rfl) hend
        (m := { m₁.next.setFlag (t + 2) true with pc := m.pc + 9 }) rfl (value rfl hp)
        (setSlot_slots_self ..)
      refine ⟨_, (h₂.trans h₃).trans h₄, rfl, ?_, rfl, fun x => ?_, rfl⟩
      · simp [hzero, hpos]
      · simp [m₁, setSlot, setFlag, next, var]
    · have hb : Test.positive.holds sv = false := by simp [Test.holds, hpos]
      have h₃ := reaches_test_branch hu (hc (j := 7) rfl) (hc (j := 8) rfl) (m := m₁.next) rfl
        (value rfl hs) hb (hc (j := 12) rfl)
      have h₄ := reaches_arm hu (hc (j := 12) rfl) (hc (j := 13) rfl) (hc (j := 14) rfl) hend
        (m := { m₁.next.setFlag (t + 2) false with pc := m.pc + 12 }) rfl (value rfl hn)
        (setSlot_slots_self ..)
      refine ⟨_, (h₂.trans h₃).trans h₄, rfl, ?_, rfl, fun x => ?_, rfl⟩
      · simp [hzero, hpos]
      · simp [m₁, setSlot, setFlag, next, var]

theorem select_arrives (hu : UniqueLabels code) (hm : m.At d env)
    (hc : (d.select dest s z p n).code <+: code) (hs : m.value? s = some sv) (hz : m.value? z = some zv)
    (hp : m.value? p = some pv) (hn : m.value? n = some nv) :
    ∃ m', m.Arrives code env d (d.select dest s z p n) m' ∧
      m'.values (d.temps + 3) = some (if sv = 0 then zv else if 0 < sv then pv else nv) := by
  have hfetch {j : Nat} {i : Instr} (hj : (selectCode (.temp dest) d.chooses (d.temps + 1) (d.temps + 2)
      (d.temps + 3) s z p n)[j]? = some i) : code[m.pc + j]? = some i := by
    rw [hm.pc]
    exact getElem?_of_isPrefix hc hj
  obtain ⟨m₁, hr, hpc, hslot, hvalues, hvars, hprinted⟩ := select_reaches hu hfetch hs hz hp hn
  have hlabel := reaches_label (m := m₁) (hpc ▸ hfetch (j := 15) rfl)
  have hload := reaches_load (m := m₁.next) (by rw [next_pc, hpc]; exact hfetch (j := 16) rfl) hslot
  refine ⟨_, ⟨(hr.trans hlabel).trans hload, ⟨?_, fun x hx => ?_⟩, fun t ht => ?_, hvars, hprinted⟩, ?_⟩
  · simp [hpc, hm.pc, Draft.select, selectCode]
  · exact (hvars x).trans (hm.vars x hx)
  · exact (if_neg (by omega)).trans (congrFun hvalues t)
  · exact setValue_values_self ..

end

end Machine

/-! ## Trees -/

/-- Every variable that is still to be loaded is a name and has its slot. -/
def Tree.Over (vars : List String) : Tree → Prop
  | .leaf (.ready _) => True
  | .leaf (.var x) => Token.isName x ∧ x ∈ vars
  | .node _ l r => l.Over vars ∧ r.Over vars

section
variable {v l r : Value} {w : Operand} {x : String} {a : Arith} {t : Tree} {d d' : Draft}

theorem declare_run (hn : Token.isName x) (hx : x ∈ d.vars) : (declare x).run d = .ok (.var x) d := by
  rw [declare, if_pos hn]
  exact congrArg (EStateM.Result.ok _) (Draft.allocate_of_mem hx)

theorem loadVar_run (hn : Token.isName x) (hx : x ∈ d.vars) :
    (loadVar x).run d = .ok (.temp (d.temps + 1)) (d.load x) := by
  rw [loadVar, run_bind_of_ok (declare_run hn hx)]
  rfl

theorem fetch_ok (h : v.fetch.run d = .ok w d') (hv : (Tree.leaf v).Over d.vars) :
    v = .ready w ∧ d' = d ∨ ∃ x, v = .var x ∧ x ∈ d.vars ∧ w = .temp (d.temps + 1) ∧ d' = d.load x := by
  cases v with
  | ready u => cases h; exact .inl ⟨rfl, rfl⟩
  | var x =>
    rw [Value.fetch, loadVar_run hv.1 hv.2] at h
    cases h
    exact .inr ⟨x, rfl, hv.2, rfl, rfl⟩

theorem lowerArith_ok {v : Value} (h : (lowerArith a l r).run d = .ok v d') :
    ∃ rhs d₁ lhs d₂, r.fetch.run d = .ok rhs d₁ ∧ l.fetch.run d₁ = .ok lhs d₂ ∧
      v = .ready (.temp (d₂.temps + 1)) ∧ d' = d₂.arith a lhs rhs := by
  obtain ⟨rhs, d₁, hrhs, h⟩ := run_bind_ok h
  obtain ⟨lhs, d₂, hlhs, h⟩ := run_bind_ok h
  split at h
  · cases h
  · cases h
    exact ⟨rhs, d₁, lhs, d₂, hrhs, hlhs, rfl, rfl⟩

theorem fetch_extends (h : v.fetch.run d = .ok w d') (hv : (Tree.leaf v).Over d.vars) : d.Extends d' := by
  obtain ⟨_, rfl⟩ | ⟨x, _, _, _, rfl⟩ := fetch_ok h hv
  · exact .refl _
  · exact ⟨rfl, Nat.le_succ _, List.prefix_append ..⟩

theorem lowerArith_extends {v : Value} (h : (lowerArith a l r).run d = .ok v d')
    (hl : (Tree.leaf l).Over d.vars) (hr : (Tree.leaf r).Over d.vars) : d.Extends d' := by
  obtain ⟨rhs, d₁, lhs, d₂, hrhs, hlhs, _, rfl⟩ := lowerArith_ok h
  have h₁ := fetch_extends hrhs hr
  have h₂ := fetch_extends hlhs (h₁.vars ▸ hl)
  exact (h₁.trans h₂).trans ⟨rfl, Nat.le_succ _, List.prefix_append ..⟩

theorem Tree.lower_extends {v : Value} (h : t.lower.run d = .ok v d') (ht : t.Over d.vars) :
    d.Extends d' ∧ (Tree.leaf v).Over d.vars := by
  induction t generalizing v d d' with
  | leaf u => cases h; exact ⟨.refl _, ht⟩
  | node a l r ihl ihr =>
    obtain ⟨lhs, d₁, hl, h⟩ := run_bind_ok h
    obtain ⟨rhs, d₂, hr, h⟩ := run_bind_ok h
    obtain ⟨h₁, hlo⟩ := ihl hl ht.1
    obtain ⟨h₂, hro⟩ := ihr hr (h₁.vars ▸ ht.2)
    have h₁₂ := h₁.trans h₂
    have h₃ := lowerArith_extends h (h₁₂.vars ▸ hlo) (by rw [h₂.vars]; exact hro)
    obtain ⟨_, _, _, _, _, _, rfl, _⟩ := lowerArith_ok h
    exact ⟨h₁₂.trans h₃, trivial⟩

end

/-- The value of a tree in a machine behind a draft; there is none if it divides by zero. -/
inductive Tree.Means (m : Machine) (d : Draft) (env : Env) : Tree → Option Int32 → Prop
  | literal (n : Int32) : Means m d env (.leaf (.ready (.literal n))) (some n)
  | temp {t : Nat} {v : Int32} : t ≤ d.temps → m.values t = some v →
    Means m d env (.leaf (.ready (.temp t))) (some v)
  | var {x : String} : Token.isName x → x ∈ d.vars → Means m d env (.leaf (.var x)) (some (env x))
  | node {a : Arith} {l r : Tree} {x y : Option Int32} :
    Means m d env l x → Means m d env r y →
    Means m d env (.node a l r) (do a.apply? (← x) (← y))

section
variable {code : List Instr} {env : Env} {d d₁ d' : Draft} {m m' : Machine} {t t' : Tree}
  {o o' : Option Int32}

theorem Tree.Means.over (h : t.Means m d env o) : t.Over d.vars := by
  induction h with
  | literal => trivial
  | temp => trivial
  | var hn hx => exact ⟨hn, hx⟩
  | node _ _ hl hr => exact ⟨hl, hr⟩

theorem Tree.Means.mono (h : t.Means m d env o) (hd : d.Extends d') (hk : m.Keeps d.temps m') :
    t.Means m' d' env o := by
  induction h with
  | literal n => exact .literal n
  | temp ht hv => exact .temp (Nat.le_trans ht hd.temps) ((hk.values _ ht).trans hv)
  | var hn hx => exact .var hn (hd.vars ▸ hx)
  | node _ _ hl hr => exact .node hl hr

theorem Tree.Means.leaf_isSome {v : Value} (h : (Tree.leaf v).Means m d env o) : ∃ x, o = some x := by
  cases h <;> exact ⟨_, rfl⟩

theorem Tree.Means.value? {w : Operand} {x : Int32} (h : (Tree.leaf (.ready w)).Means m d env (some x)) :
    m.value? w = some x := by
  cases h with
  | literal n => rfl
  | temp _ hv => exact hv

/-- The machine gets behind the draft with the value of the tree, or faults since there is none. -/
def Delivers (code : List Instr) (env : Env) (d : Draft) (m : Machine) (d' : Draft) (t : Tree)
    (o : Option Int32) : Prop :=
  (∃ m', m.Arrives code env d d' m' ∧ t.Means m' d' env o) ∨ Machine.Faults code m ∧ o = none

theorem Delivers.weaken (h : Delivers code env d₁ m d' t o) (hd : d.temps ≤ d₁.temps) :
    Delivers code env d m d' t o := by
  rcases h with ⟨m', ha, hm⟩ | hf
  · have hk := ha.keeps
    exact .inl ⟨m', ⟨ha.reaches, ha.stands, fun t ht => hk.values t (Nat.le_trans ht hd), hk.vars,
      hk.printed⟩, hm⟩
  · exact .inr hf

theorem Delivers.bind (h : Delivers code env d m d₁ t o) (hd : d.temps ≤ d₁.temps)
    (hnone : o = none → o' = none)
    (hf : ∀ m₁, m.Arrives code env d d₁ m₁ → t.Means m₁ d₁ env o →
      Delivers code env d₁ m₁ d' t' o') : Delivers code env d m d' t' o' := by
  rcases h with ⟨m₁, ha, hm⟩ | ⟨hfault, ho⟩
  · rcases hf m₁ ha hm with ⟨m₂, ha', hm'⟩ | ⟨hfault, ho'⟩
    · exact .inl ⟨m₂, ha.trans ha' hd, hm'⟩
    · exact .inr ⟨ha.faults hfault, ho'⟩
  · exact .inr ⟨hfault, hnone ho⟩

end

section
variable {code : List Instr} {env : Env} {d d' : Draft} {m : Machine} {v l r : Value} {w : Operand}
  {x y : Int32} {a : Arith} {t : Tree} {o : Option Int32}

theorem fetch_arrives (h : v.fetch.run d = .ok w d') (hv : (Tree.leaf v).Means m d env (some x))
    (hm : m.At d env) (hc : d'.code <+: code) :
    ∃ m', m.Arrives code env d d' m' ∧ (Tree.leaf (.ready w)).Means m' d' env (some x) := by
  obtain ⟨rfl, rfl⟩ | ⟨y, rfl, hy, rfl, rfl⟩ := fetch_ok h hv.over
  · exact ⟨m, .refl hm, hv⟩
  · cases hv
    have hload := Machine.reaches_load (by rw [hm.pc]; exact getElem?_of_isPrefix hc (j := 0) rfl)
      (hm.vars y hy)
    refine ⟨_, Machine.arrives_setValue hm hload, .temp (Nat.le_refl _) ?_⟩
    exact Machine.setValue_values_self ..

theorem lowerArith_delivers (h : (lowerArith a l r).run d = .ok v d')
    (hl : (Tree.leaf l).Means m d env (some x)) (hr : (Tree.leaf r).Means m d env (some y))
    (hm : m.At d env) (hc : d'.code <+: code) :
    Delivers code env d m d' (.leaf v) ( a.apply? x y) := by
  obtain ⟨rhs, d₁, lhs, d₂, hrhs, hlhs, rfl, rfl⟩ := lowerArith_ok h
  have he₁ := fetch_extends hrhs hr.over
  have he₂ := fetch_extends hlhs (he₁.vars ▸ hl.over)
  have hc₂ : d₂.code <+: code := (List.prefix_append ..).trans hc
  obtain ⟨m₁, ha₁, hr₁⟩ := fetch_arrives hrhs hr hm (he₂.code.trans hc₂)
  obtain ⟨m₂, ha₂, hl₂⟩ := fetch_arrives hlhs (hl.mono he₁ ha₁.keeps) ha₁.stands hc₂
  have hr₂ := hr₁.mono he₂ ha₂.keeps
  have ha := ha₁.trans ha₂ he₁.temps
  have hi : code[m₂.pc]? = some (.arith (d₂.temps + 1) a lhs rhs) := by
    rw [ha₂.stands.pc]
    exact getElem?_of_isPrefix hc (j := 0) rfl
  cases hz : a.apply? x y with
  | none => exact .inr ⟨ha.faults (Machine.faults_arith hi hl₂.value? hr₂.value? hz), rfl⟩
  | some z =>
    have hstep := Machine.arrives_setValue (i := .arith (d₂.temps + 1) a lhs rhs) ha₂.stands
      (Machine.reaches_arith hi hl₂.value? hr₂.value? hz)
    refine .inl ⟨_, ha.trans hstep (he₁.trans he₂).temps, .temp (Nat.le_refl _) ?_⟩
    exact Machine.setValue_values_self ..

theorem Tree.lower_delivers (h : t.lower.run d = .ok v d') (ht : t.Means m d env o) (hm : m.At d env)
    (hc : d'.code <+: code) : Delivers code env d m d' (.leaf v) o := by
  induction t generalizing v d d' m o with
  | leaf u => cases h; exact .inl ⟨m, .refl hm, ht⟩
  | node a l r ihl ihr =>
    obtain ⟨lhs, d₁, hl, h⟩ := run_bind_ok h
    obtain ⟨rhs, d₂, hr, h⟩ := run_bind_ok h
    obtain ⟨he₁, hlo⟩ := Tree.lower_extends hl ht.over.1
    obtain ⟨he₂, hro⟩ := Tree.lower_extends hr (he₁.vars ▸ ht.over.2)
    have he₃ := lowerArith_extends h ((he₁.trans he₂).vars ▸ hlo) (he₂.vars ▸ hro)
    cases ht with
    | @node _ _ _ x y hlm hrm =>
      refine (ihl hl hlm hm ((he₂.trans he₃).code.trans hc)).bind he₁.temps (by simp +contextual) ?_
      intro m₁ ha₁ hl₁
      refine (ihr hr (hrm.mono he₁ ha₁.keeps) ha₁.stands (he₃.code.trans hc)).bind he₂.temps
        (by simp +contextual) ?_
      intro m₂ ha₂ hr₂
      have hl₂ := hl₁.mono he₂ ha₂.keeps
      obtain ⟨x, rfl⟩ := hl₂.leaf_isSome
      obtain ⟨y, rfl⟩ := hr₂.leaf_isSome
      exact lowerArith_delivers h hl₂ hr₂ ha₂.stands hc

end

/-! ## Expressions -/

/-- Every variable of the expression is a name and has its slot. -/
def Expr.Over (vars : List String) : Expr → Prop
  | .lit _ => True
  | .var x => Token.isName x ∧ x ∈ vars
  | .op _ l r => l.Over vars ∧ r.Over vars
  | .choose s z p n => s.Over vars ∧ z.Over vars ∧ p.Over vars ∧ n.Over vars

theorem Draft.extends_takeTemp (d : Draft) : d.Extends d.takeTemp :=
  ⟨rfl, Nat.le_succ _, List.prefix_rfl⟩

theorem Draft.extends_select (d : Draft) (dest : Nat) (s z p n : Operand) :
    d.Extends (d.select dest s z p n) :=
  ⟨rfl, Nat.le_add_right .., List.prefix_append ..⟩

theorem Expr.collect_choose_ok {s z p n : Expr} {t : Tree} {d d' : Draft}
    (h : (Expr.choose s z p n).collect.run d = .ok t d') : ∃ sw d₁ zw d₂ pw d₃ nw d₄,
      s.lower.run d.takeTemp = .ok sw d₁ ∧ z.lower.run d₁ = .ok zw d₂ ∧ p.lower.run d₂ = .ok pw d₃ ∧
      n.lower.run d₃ = .ok nw d₄ ∧ t = .leaf (.ready (.temp (d₄.temps + 3))) ∧
      d' = d₄.select (d.temps + 1) sw zw pw nw := by
  obtain ⟨dest, _, hd, h⟩ := run_bind_ok h
  cases hd
  obtain ⟨sw, d₁, hs, h⟩ := run_bind_ok h
  obtain ⟨zw, d₂, hz, h⟩ := run_bind_ok h
  obtain ⟨pw, d₃, hp, h⟩ := run_bind_ok h
  obtain ⟨nw, d₄, hn, h⟩ := run_bind_ok h
  obtain ⟨v, d₅, hv, h⟩ := run_bind_ok h
  rw [lowerSelect_run] at hv
  cases hv
  cases h
  exact ⟨sw, d₁, zw, d₂, pw, d₃, nw, d₄, hs, hz, hp, hn, rfl, rfl⟩

section
variable {code : List Instr} {env : Env} {e : Expr} {t : Tree} {w : Operand} {d d' : Draft}
  {m : Machine}

theorem Expr.lower_extends_of_collect
    (hc : ∀ {t d'}, e.collect.run d = .ok t d' → d.Extends d' ∧ t.Over d.vars)
    (h : e.lower.run d = .ok w d') : d.Extends d' := by
  obtain ⟨t, d₁, ht, h⟩ := run_bind_ok h
  obtain ⟨v, d₂, hv, h⟩ := run_bind_ok h
  obtain ⟨h₁, hto⟩ := hc ht
  obtain ⟨h₂, hvo⟩ := Tree.lower_extends hv (h₁.vars ▸ hto)
  exact (h₁.trans h₂).trans (fetch_extends h (by rw [h₂.vars]; exact hvo))

theorem Expr.collect_extends (h : e.collect.run d = .ok t d') (ho : e.Over d.vars) :
    d.Extends d' ∧ t.Over d.vars := by
  induction e generalizing t d d' with
  | lit n => cases h; exact ⟨.refl _, trivial⟩
  | var x => cases h; exact ⟨.refl _, ho⟩
  | op a l r ihl ihr =>
    obtain ⟨lt, d₁, hl, h⟩ := run_bind_ok h
    obtain ⟨rt, d₂, hr, h⟩ := run_bind_ok h
    cases h
    obtain ⟨h₁, hlo⟩ := ihl hl ho.1
    obtain ⟨h₂, hro⟩ := ihr hr (h₁.vars ▸ ho.2)
    exact ⟨h₁.trans h₂, hlo, h₁.vars ▸ hro⟩
  | choose s z p n ihs ihz ihp ihn =>
    obtain ⟨sw, d₁, zw, d₂, pw, d₃, nw, d₄, hs, hz, hp, hn, rfl, rfl⟩ := collect_choose_ok h
    obtain ⟨hos, hoz, hop, hon⟩ := ho
    have h₁ := d.extends_takeTemp.trans (lower_extends_of_collect (fun h => ihs h hos) hs)
    have h₂ := h₁.trans (lower_extends_of_collect (fun h => ihz h (h₁.vars ▸ hoz)) hz)
    have h₃ := h₂.trans (lower_extends_of_collect (fun h => ihp h (h₂.vars ▸ hop)) hp)
    have h₄ := h₃.trans (lower_extends_of_collect (fun h => ihn h (h₃.vars ▸ hon)) hn)
    exact ⟨h₄.trans (d₄.extends_select ..), trivial⟩

theorem Expr.lower_extends (h : e.lower.run d = .ok w d') (ho : e.Over d.vars) : d.Extends d' :=
  lower_extends_of_collect (fun h => collect_extends h ho) h

theorem Expr.lower_delivers_of_collect (ho : e.Over d.vars)
    (hcollect : ∀ {t d₁}, e.collect.run d = .ok t d₁ → d₁.code <+: code →
      Delivers code env d m d₁ t (e.eval? env))
    (h : e.lower.run d = .ok w d') (hc : d'.code <+: code) :
    Delivers code env d m d' (.leaf (.ready w)) (e.eval? env) := by
  obtain ⟨t, d₁, ht, h⟩ := run_bind_ok h
  obtain ⟨v, d₂, hv, h⟩ := run_bind_ok h
  obtain ⟨he₁, hto⟩ := collect_extends ht ho
  obtain ⟨he₂, hvo⟩ := Tree.lower_extends hv (he₁.vars ▸ hto)
  have he₃ := fetch_extends h (he₂.vars ▸ hvo)
  refine (hcollect ht ((he₂.trans he₃).code.trans hc)).bind he₁.temps id fun m₁ ha₁ ht₁ => ?_
  refine (Tree.lower_delivers hv ht₁ ha₁.stands (he₃.code.trans hc)).bind he₂.temps id
    fun m₂ ha₂ hv₂ => ?_
  obtain ⟨x, hx⟩ := hv₂.leaf_isSome
  rw [hx] at hv₂ ⊢
  exact .inl (fetch_arrives h hv₂ ha₂.stands hc)

theorem Expr.collect_delivers (hu : Machine.UniqueLabels code) (h : e.collect.run d = .ok t d')
    (ho : e.Over d.vars) (hm : m.At d env) (hc : d'.code <+: code) :
    Delivers code env d m d' t (e.eval? env) := by
  induction e generalizing t d d' m with
  | lit n => cases h; exact .inl ⟨m, .refl hm, .literal n⟩
  | var x => cases h; exact .inl ⟨m, .refl hm, .var ho.1 ho.2⟩
  | op a l r ihl ihr =>
    obtain ⟨lt, d₁, hl, h⟩ := run_bind_ok h
    obtain ⟨rt, d₂, hr, h⟩ := run_bind_ok h
    cases h
    obtain ⟨he₁, _⟩ := collect_extends hl ho.1
    obtain ⟨he₂, _⟩ := collect_extends hr (he₁.vars ▸ ho.2)
    refine (ihl hl ho.1 hm (he₂.code.trans hc)).bind he₁.temps (by simp +contextual [eval?]) ?_
    intro m₁ ha₁ hl₁
    refine (ihr hr (he₁.vars ▸ ho.2) ha₁.stands hc).bind he₂.temps (by simp +contextual [eval?]) ?_
    intro m₂ ha₂ hr₂
    exact .inl ⟨m₂, .refl ha₂.stands, .node (hl₁.mono he₂ ha₂.keeps) hr₂⟩
  | choose s z p n ihs ihz ihp ihn =>
    obtain ⟨sw, d₁, zw, d₂, pw, d₃, nw, d₄, hs, hz, hp, hn, rfl, rfl⟩ := collect_choose_ok h
    obtain ⟨hos, hoz, hop, hon⟩ := ho
    have hos : s.Over d.takeTemp.vars := hos
    have he₁ := lower_extends hs hos
    have hoz : z.Over d₁.vars := he₁.vars ▸ hoz
    have he₂ := lower_extends hz hoz
    have hop : p.Over d₂.vars := (he₁.trans he₂).vars ▸ hop
    have he₃ := lower_extends hp hop
    have hon : n.Over d₃.vars := ((he₁.trans he₂).trans he₃).vars ▸ hon
    have he₄ := lower_extends hn hon
    have hc₄ : d₄.code <+: code := (List.prefix_append ..).trans hc
    have hc₃ := he₄.code.trans hc₄
    have hc₂ := he₃.code.trans hc₃
    have hm' : m.At d.takeTemp env := ⟨hm.pc, hm.vars⟩
    refine Delivers.weaken ?_ d.extends_takeTemp.temps
    refine (lower_delivers_of_collect hos (fun h => ihs h hos hm') hs (he₂.code.trans hc₂)).bind
      he₁.temps (by simp +contextual [eval?]) fun m₁ ha₁ hs₁ => ?_
    refine (lower_delivers_of_collect hoz (fun h => ihz h hoz ha₁.stands) hz hc₂).bind
      he₂.temps (by simp +contextual [eval?]) fun m₂ ha₂ hz₂ => ?_
    refine (lower_delivers_of_collect hop (fun h => ihp h hop ha₂.stands) hp hc₃).bind
      he₃.temps (by simp +contextual [eval?]) fun m₃ ha₃ hp₃ => ?_
    refine (lower_delivers_of_collect hon (fun h => ihn h hon ha₃.stands) hn hc₄).bind
      he₄.temps (by simp +contextual [eval?]) fun m₄ ha₄ hn₄ => ?_
    -- What the earlier arguments left in temporaries is still there.
    have hs₄ := ((hs₁.mono he₂ ha₂.keeps).mono he₃ ha₃.keeps).mono he₄ ha₄.keeps
    have hz₄ := (hz₂.mono he₃ ha₃.keeps).mono he₄ ha₄.keeps
    have hp₄ := hp₃.mono he₄ ha₄.keeps
    obtain ⟨sv, hsv⟩ := hs₄.leaf_isSome
    obtain ⟨zv, hzv⟩ := hz₄.leaf_isSome
    obtain ⟨pv, hpv⟩ := hp₄.leaf_isSome
    obtain ⟨nv, hnv⟩ := hn₄.leaf_isSome
    rw [hsv] at hs₄
    rw [hzv] at hz₄
    rw [hpv] at hp₄
    rw [hnv] at hn₄
    obtain ⟨m', ha', hv'⟩ := Machine.select_arrives hu ha₄.stands hc hs₄.value? hz₄.value? hp₄.value?
      hn₄.value?
    simp only [eval?, hsv, hzv, hpv, hnv]
    exact .inl ⟨m', ha', .temp (Nat.le_refl _) hv'⟩

/-- The code of an expression computes its value, or faults just if there is none. -/
theorem Expr.lower_delivers (hu : Machine.UniqueLabels code) (h : e.lower.run d = .ok w d')
    (ho : e.Over d.vars) (hm : m.At d env) (hc : d'.code <+: code) :
    Delivers code env d m d' (.leaf (.ready w)) (e.eval? env) :=
  lower_delivers_of_collect ho (fun h => collect_delivers hu h ho hm) h hc

end

/-! ## Acceptance -/

def Tree.NoZeroDivisor : Tree → Prop
  | .leaf _ => True
  | .node a l r => l.NoZeroDivisor ∧ r.NoZeroDivisor ∧ ¬(a = .div ∧ r = .leaf (.ready (.literal 0)))

section
variable {v l r : Value} {a : Arith} {t : Tree} {e : Expr} {d : Draft}

theorem fetch_accepted (hv : (Tree.leaf v).Over d.vars) :
    ∃ w d', v.fetch.run d = .ok w d' ∧ ∀ n, w = .literal n → v = .ready (.literal n) := by
  cases v with
  | ready w => exact ⟨w, d, rfl, fun n hn => hn ▸ rfl⟩
  | var x => exact ⟨_, _, loadVar_run hv.1 hv.2, fun n hn => by cases hn⟩

theorem lowerArith_accepted (hl : (Tree.leaf l).Over d.vars) (hr : (Tree.leaf r).Over d.vars)
    (hz : ¬(a = .div ∧ r = .ready (.literal 0))) :
    ∃ t d', (lowerArith a l r).run d = .ok (.ready (.temp t)) d' := by
  obtain ⟨rhs, d₁, hrhs, hlit⟩ := fetch_accepted hr
  have he := fetch_extends hrhs hr
  obtain ⟨lhs, d₂, hlhs, _⟩ := fetch_accepted (he.vars ▸ hl)
  have hn : ¬(a = .div ∧ rhs = .literal 0) := fun h => hz ⟨h.1, hlit 0 h.2⟩
  refine ⟨d₂.temps + 1, d₂.arith a lhs rhs, ?_⟩
  rw [lowerArith, run_bind_of_ok hrhs, run_bind_of_ok hlhs, if_neg hn]
  rfl

theorem Tree.lower_accepted (ht : t.Over d.vars) (hz : t.NoZeroDivisor) : ∃ v d',
    t.lower.run d = .ok v d' ∧ ∀ n, v = .ready (.literal n) → t = .leaf (.ready (.literal n)) := by
  induction t generalizing d with
  | leaf v => exact ⟨v, d, rfl, fun n hn => hn ▸ rfl⟩
  | node a l r ihl ihr =>
    obtain ⟨lv, d₁, hl, _⟩ := ihl ht.1 hz.1
    obtain ⟨he₁, hlo⟩ := Tree.lower_extends hl ht.1
    obtain ⟨rv, d₂, hr, hlit⟩ := ihr (he₁.vars ▸ ht.2) hz.2.1
    obtain ⟨he₂, hro⟩ := Tree.lower_extends hr (he₁.vars ▸ ht.2)
    have hdiv : ¬(a = .div ∧ rv = .ready (.literal 0)) := fun h => hz.2.2 ⟨h.1, hlit 0 h.2⟩
    obtain ⟨id, d₃, h⟩ := lowerArith_accepted ((he₁.trans he₂).vars ▸ hlo) (he₂.vars ▸ hro) hdiv
    refine ⟨.ready (.temp id), d₃, ?_, fun n hn => by cases hn⟩
    rw [Tree.lower, run_bind_of_ok hl, run_bind_of_ok hr, h]

theorem Expr.lower_accepted_of_collect (ho : e.Over d.vars)
    (hc : ∃ t d', e.collect.run d = .ok t d' ∧ t.NoZeroDivisor ∧
      ∀ n, t = .leaf (.ready (.literal n)) → e = .lit n) : ∃ w d', e.lower.run d = .ok w d' := by
  obtain ⟨t, d₁, ht, hz, _⟩ := hc
  obtain ⟨he₁, hto⟩ := collect_extends ht ho
  obtain ⟨v, d₂, hv, _⟩ := Tree.lower_accepted (he₁.vars ▸ hto) hz
  obtain ⟨he₂, hvo⟩ := Tree.lower_extends hv (he₁.vars ▸ hto)
  obtain ⟨w, d₃, hw, _⟩ := fetch_accepted (he₂.vars ▸ hvo)
  exact ⟨w, d₃, by rw [Expr.lower, run_bind_of_ok ht, run_bind_of_ok hv, hw]⟩

theorem Expr.collect_accepted (ho : e.Over d.vars) (hz : e.NoZeroDivisor) : ∃ t d',
    e.collect.run d = .ok t d' ∧ t.NoZeroDivisor ∧ ∀ n, t = .leaf (.ready (.literal n)) → e = .lit n := by
  induction e generalizing d with
  | lit n => exact ⟨_, d, rfl, trivial, fun k hk => by cases hk; rfl⟩
  | var x => exact ⟨_, d, rfl, trivial, fun k hk => by cases hk⟩
  | op a l r ihl ihr =>
    obtain ⟨hzl, hzr, hdiv⟩ := hz
    obtain ⟨lt, d₁, hl, hlz, _⟩ := ihl ho.1 hzl
    obtain ⟨he₁, _⟩ := collect_extends hl ho.1
    obtain ⟨rt, d₂, hr, hrz, hlit⟩ := ihr (he₁.vars ▸ ho.2) hzr
    refine ⟨.node a lt rt, d₂, ?_, ⟨hlz, hrz, fun h => hdiv ⟨h.1, hlit 0 h.2⟩⟩, fun n hn => by cases hn⟩
    rw [Expr.collect, run_bind_of_ok hl, run_bind_of_ok hr]
    rfl
  | choose s z p n ihs ihz ihp ihn =>
    obtain ⟨hos, hoz, hop, hon⟩ := ho
    obtain ⟨hzs, hzz, hzp, hzn⟩ := hz
    have hos : s.Over d.takeTemp.vars := hos
    obtain ⟨sw, d₁, hs⟩ := lower_accepted_of_collect hos (ihs hos hzs)
    have he₁ := lower_extends hs hos
    have hoz : z.Over d₁.vars := he₁.vars ▸ hoz
    obtain ⟨zw, d₂, hz⟩ := lower_accepted_of_collect hoz (ihz hoz hzz)
    have he₂ := he₁.trans (lower_extends hz hoz)
    have hop : p.Over d₂.vars := he₂.vars ▸ hop
    obtain ⟨pw, d₃, hp⟩ := lower_accepted_of_collect hop (ihp hop hzp)
    have he₃ := he₂.trans (lower_extends hp hop)
    have hon : n.Over d₃.vars := he₃.vars ▸ hon
    obtain ⟨nw, d₄, hn⟩ := lower_accepted_of_collect hon (ihn hon hzn)
    refine ⟨.leaf (.ready (.temp (d₄.temps + 3))), d₄.select (d.temps + 1) sw zw pw nw, ?_, trivial,
      fun n hn => by cases hn⟩
    have hd : (freshTemp : EStateM Cause Draft Nat).run d = .ok (d.temps + 1) d.takeTemp := rfl
    change ((freshTemp : EStateM Cause Draft Nat) >>= fun dest => s.lower >>= fun sv =>
      z.lower >>= fun zv => p.lower >>= fun pv => n.lower >>= fun nv =>
      lowerSelect (.temp dest) sv zv pv nv >>= fun v => pure (Tree.leaf (.ready v))).run d = _
    rw [run_bind_of_ok hd, run_bind_of_ok hs, run_bind_of_ok hz, run_bind_of_ok hp, run_bind_of_ok hn,
      run_bind_of_ok (lowerSelect_run ..)]
    rfl

theorem Expr.lower_accepted (ho : e.Over d.vars) (hz : e.NoZeroDivisor) :
    ∃ w d', e.lower.run d = .ok w d' :=
  lower_accepted_of_collect ho (collect_accepted ho hz)

end

end SlotCompiler
