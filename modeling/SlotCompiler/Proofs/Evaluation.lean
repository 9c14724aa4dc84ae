import SlotCompiler.Proofs.Layout

/-!
# Expressions in any context

The code of an expression is taken out of its context: it is the same whatever code stands in front of it
(`Movable`), it runs alike wherever it stands (`Machine.Reaches.moved`), and a fault of the machine is a
division by zero. An expression is accepted just if it divides by no literal zero, and then its code
computes its value, or stops at a division by zero if there is none: `lowerExpr_settles`.
-/

namespace SlotCompiler

open Machine

/-! ## Code in front -/

/-- The draft with other code in front of its own. -/
def Draft.behind (front : List Instr) (d : Draft) : Draft := { d with code := front ++ d.code }

def resultBehind {ε α : Type} (front : List Instr) : EStateM.Result ε Draft α → EStateM.Result ε Draft α
  | .ok a d => .ok a (d.behind front)
  | .error e d => .error e (d.behind front)

/-- Code in front of a draft makes no difference. -/
def Movable {ε α : Type} (x : EStateM ε Draft α) : Prop :=
  ∀ (front : List Instr) (d : Draft), x.run (d.behind front) = resultBehind front (x.run d)

section
variable {ε α β : Type} {x : EStateM ε Draft α}

theorem Movable.bind {f : α → EStateM ε Draft β} (h : Movable x) (hf : ∀ a, Movable (f a)) :
    Movable (x >>= f) := by
  intro front d
  rw [EStateM.run_bind, EStateM.run_bind, h front d]
  cases x.run d with
  | ok a d' => exact hf a front d'
  | error e d' => rfl

/-- A computation appends the code that it appends to no code. -/
theorem Movable.alone {a : α} {d d' : Draft} (h : Movable x) (hr : x.run d = .ok a d') :
    ∃ d₁, x.run { d with code := [] } = .ok a d₁ ∧ d'.code = d.code ++ d₁.code := by
  have hd : ({ d with code := [] } : Draft).behind d.code = d := by simp [Draft.behind]
  have hrun := h d.code { d with code := [] }
  rw [hd, hr] at hrun
  cases hx : x.run { d with code := [] } with
  | ok b d₁ =>
    rw [hx] at hrun
    cases hrun
    exact ⟨d₁, rfl, rfl⟩
  | error e d₁ =>
    rw [hx] at hrun
    cases hrun

theorem movable_pure (a : α) : Movable (pure a : EStateM ε Draft α) := by
  intro front d
  rfl

theorem movable_throw (e : ε) : Movable (throw e : EStateM ε Draft α) := by
  intro front d
  rfl

theorem movable_freshTemp : Movable (freshTemp : EStateM ε Draft Nat) := by
  intro front d
  rfl

theorem Draft.push_behind (front : List Instr) (d : Draft) (cs : List Instr) :
    (d.behind front).push cs = (d.push cs).behind front := by
  simp [push, behind]

theorem movable_emit (cs : List Instr) : Movable (emit cs : EStateM ε Draft Unit) := by
  intro front d
  rw [emit_run, emit_run, Draft.push_behind]
  rfl

theorem Draft.allocate_behind (front : List Instr) (d : Draft) (x : String) :
    (d.behind front).allocate x = (d.allocate x).behind front := by
  unfold allocate
  by_cases h : x ∈ d.vars
  · rw [if_pos h, if_pos (show x ∈ (d.behind front).vars from h)]
  · rw [if_neg h, if_neg (show x ∉ (d.behind front).vars from h), ← push_behind]
    rfl

theorem movable_declare (x : Token) : Movable (declare x) := by
  intro front d
  unfold declare
  by_cases h : x.isName
  · simp only [if_pos h]
    exact congrArg (EStateM.Result.ok _) (d.allocate_behind front x)
  · simp only [if_neg h]
    rfl

theorem movable_loadVar (x : Token) : Movable (loadVar x) := by
  unfold loadVar
  apply (movable_declare x).bind
  intro slot
  apply movable_freshTemp.bind
  intro dest
  apply (movable_emit [.load dest slot]).bind
  intro _
  exact movable_pure _

theorem movable_fetch (v : Value) : Movable v.fetch := by
  cases v with
  | ready v => exact movable_pure v
  | var x => exact movable_loadVar x

theorem movable_lowerArith (a : Arith) (l r : Value) : Movable (lowerArith a l r) := by
  unfold lowerArith
  apply (movable_fetch r).bind
  intro rhs
  apply (movable_fetch l).bind
  intro lhs
  by_cases h : a = .div ∧ rhs = .literal 0
  · simp only [if_pos h]
    exact movable_throw _
  · simp only [if_neg h]
    apply movable_freshTemp.bind
    intro dest
    apply (movable_emit [.arith dest a lhs rhs]).bind
    intro _
    exact movable_pure _

theorem movable_lowerSelect (dest : Nat) (s z p n : Operand) :
    Movable (lowerSelect (.temp dest) s z p n) := by
  intro front d
  rw [lowerSelect_run, lowerSelect_run]
  apply congrArg (EStateM.Result.ok _)
  simp only [Draft.select, ← Draft.push_behind]
  rfl

theorem Tree.movable_lower (t : Tree) : Movable t.lower := by
  induction t with
  | leaf v => exact movable_pure v
  | node a l r ihl ihr =>
    apply ihl.bind
    intro lhs
    apply ihr.bind
    intro rhs
    exact movable_lowerArith a lhs rhs

theorem Expr.movable_lower_of_collect {e : Expr} (h : Movable e.collect) : Movable e.lower :=
  h.bind fun t => t.movable_lower.bind movable_fetch

theorem Expr.movable_collect (e : Expr) : Movable e.collect := by
  induction e with
  | lit n => exact movable_pure _
  | var x => exact movable_pure _
  | op a l r ihl ihr =>
    apply ihl.bind
    intro lhs
    apply ihr.bind
    intro rhs
    exact movable_pure _
  | choose s z p n ihs ihz ihp ihn =>
    apply movable_freshTemp.bind
    intro dest
    apply (movable_lower_of_collect ihs).bind
    intro sv
    apply (movable_lower_of_collect ihz).bind
    intro zv
    apply (movable_lower_of_collect ihp).bind
    intro pv
    apply (movable_lower_of_collect ihn).bind
    intro nv
    apply (movable_lowerSelect dest sv zv pv nv).bind
    intro v
    exact movable_pure _

end

/-! ## Code in place -/

namespace Machine

/-- The machine stands at a division by zero. -/
def Divides (code : List Instr) (m : Machine) : Prop :=
  ∃ dest l r x, code[m.pc]? = some (.arith dest .div l r) ∧ m.value? l = some x ∧ m.value? r = some 0

def moved (k : Nat) (m : Machine) : Machine := { m with pc := k + m.pc }

section
variable {code front cs back : List Instr} {m m' : Machine} {p : List Printed} {n : Nat}

theorem value?_moved (k : Nat) (w : Operand) : (m.moved k).value? w = m.value? w :=
  value?_congr rfl w

theorem Divides.step_eq (h : m.Divides code) : m.step code = .fault m.printed := by
  obtain ⟨dest, l, r, x, hi, hl, hr⟩ := h
  rw [Machine.step_eq hi]
  simp [exec, hl, hr, Arith.apply?]

theorem divides_of_step (h : m.step code = .fault p) : m.Divides code ∧ p = m.printed := by
  unfold step at h
  split at h
  · rename_i i hi
    cases i with
    | arith dest a l r =>
      simp only [exec] at h
      split at h
      · rename_i x y hl hr
        cases a with
        | div =>
          by_cases hy : y = 0
          · subst hy
            simp only [ Arith.apply?, if_pos] at h
            cases h
            exact ⟨⟨dest, l, r, x, hi, hl, hr⟩, rfl⟩
          · simp [ Arith.apply?, hy] at h
        | _ => simp [ Arith.apply?] at h
      · cases h
    | _ => simp only [exec, jump] at h; grind
  · cases h

/-- A run that ends in a fault has come to an instruction that faults. -/
theorem exists_step_of_run (h : run code n m = .fault p) :
    ∃ m', Reaches code m m' ∧ m'.step code = .fault p := by
  induction n generalizing m with
  | zero => cases h
  | succ n ih =>
    rw [run] at h
    cases hs : m.step code with
    | running m₁ =>
      rw [hs] at h
      obtain ⟨m', hr, hm'⟩ := ih h
      exact ⟨m', (reaches_of_step hs).trans hr, hm'⟩
    | fault q =>
      rw [hs] at h
      exact ⟨m, .refl code m, hs.trans h⟩
    | done q => rw [hs] at h; cases h
    | stuck => rw [hs] at h; cases h

theorem Faults.divides (h : Faults code m) :
    ∃ m', Reaches code m m' ∧ m'.Divides code ∧ m'.printed = m.printed := by
  obtain ⟨n, hn⟩ := h
  obtain ⟨m', hr, hs⟩ := exists_step_of_run hn
  obtain ⟨hd, hp⟩ := divides_of_step hs
  exact ⟨m', hr, hd, hp.symm⟩

theorem getElem?_moved {i : Instr} {q : Nat} (h : cs[q]? = some i) :
    (front ++ cs ++ back)[front.length + q]? = some i :=
  getElem?_of_isPrefix (List.prefix_append ..) h

theorem jump_moved (hu : UniqueLabels (front ++ cs ++ back)) {l : Label} (h : m.jump cs l = .running m') :
    (m.moved front.length).jump (front ++ cs ++ back) l = .running (m'.moved front.length) := by
  unfold jump at h
  split at h
  · rename_i q hq
    cases h
    rw [jump_eq hu (getElem?_moved (getElem?_of_idxOf? hq))]
    rfl
  · cases h

/-- Code that stands among other code takes the same steps, as long as no label is there twice. -/
theorem step_moved (hu : UniqueLabels (front ++ cs ++ back)) (h : m.step cs = .running m') :
    (m.moved front.length).step (front ++ cs ++ back) = .running (m'.moved front.length) := by
  unfold step at h
  split at h
  · rename_i i hi
    rw [step_eq (getElem?_moved hi)]
    cases i with
    | jump l => exact jump_moved hu h
    | branch t yes no =>
      simp only [exec] at h ⊢
      split at h
      · rename_i b hb
        rw [show (m.moved front.length).flags t = some b from hb]
        exact jump_moved hu h
      · cases h
    | store w slot =>
      simp only [exec, value?_moved] at h ⊢
      split at h
      · rename_i v old hw hs
        rw [hw, show (m.moved front.length).slots slot = some old from hs]
        cases h
        rfl
      · cases h
    | load dest slot =>
      simp only [exec] at h ⊢
      split at h
      · rename_i v hs
        rw [show (m.moved front.length).slots slot = some v from hs]
        cases h
        rfl
      · cases h
    | arith dest a l r =>
      simp only [exec, value?_moved] at h ⊢
      split at h
      · split at h
        · cases h
          rfl
        · cases h
      · cases h
    | test dest kind w =>
      simp only [exec, value?_moved] at h ⊢
      split at h
      · cases h
        rfl
      · cases h
    | print w =>
      simp only [exec, value?_moved] at h ⊢
      split at h
      · cases h
        rfl
      · cases h
    | alloca slot => cases h; rfl
    | label l => cases h; rfl
    | printError line => cases h; rfl
  · cases h

theorem Reaches.moved (hu : UniqueLabels (front ++ cs ++ back)) (h : Reaches cs m m') :
    Reaches (front ++ cs ++ back) (m.moved front.length) (m'.moved front.length) := by
  obtain ⟨n, hn⟩ := h
  induction n generalizing m with
  | zero =>
    cases hn
    exact .refl ..
  | succ n ih =>
    rw [run] at hn
    cases hs : m.step cs with
    | running m₁ =>
      rw [hs] at hn
      exact (reaches_of_step (step_moved hu hs)).trans (ih hn)
    | done q => rw [hs] at hn; cases hn
    | fault q => rw [hs] at hn; cases hn
    | stuck => rw [hs] at hn; cases hn

theorem Divides.moved (h : m.Divides cs) : (m.moved front.length).Divides (front ++ cs ++ back) := by
  obtain ⟨dest, l, r, x, hi, hl, hr⟩ := h
  exact ⟨dest, l, r, x, getElem?_moved hi, by rw [value?_moved, hl], by rw [value?_moved, hr]⟩

/-- With a value, the machine comes to the end with it and keeps all variables; without one it stops at a
division by zero on its way there. -/
def Settles (code : List Instr) (m : Machine) (stop : Nat) (v : Operand) : Option Int32 → Prop
  | some n => ∃ m', Reaches code m m' ∧ m'.pc = stop ∧ m'.value? v = some n ∧
      (∀ x, m'.slots (.var x) = m.slots (.var x)) ∧ m'.printed = m.printed
  | none => ∃ m', Reaches code m m' ∧ m.pc ≤ m'.pc ∧ m'.pc < stop ∧ m'.Divides code ∧
      m'.step code = .fault m.printed

theorem Settles.moved {v : Operand} {o : Option Int32} (hu : UniqueLabels (front ++ cs ++ back))
    (hm : m.pc = 0) (h : m.Settles cs cs.length v o) :
    (m.moved front.length).Settles (front ++ cs ++ back) (front.length + cs.length) v o := by
  cases o with
  | some n =>
    obtain ⟨m', hr, hpc, hv, hvars, hp⟩ := h
    exact ⟨_, hr.moved hu, congrArg _ hpc, by rw [value?_moved, hv], hvars, hp⟩
  | none =>
    obtain ⟨m', hr, _, hlt, hd, hs⟩ := h
    refine ⟨_, hr.moved hu, ?_, Nat.add_lt_add_left hlt _, hd.moved, ?_⟩
    · show front.length + m.pc ≤ front.length + m'.pc
      omega
    · rw [hd.moved.step_eq]
      exact hd.step_eq.symm.trans hs

end

end Machine

/-! ## Literal divisors -/

section
variable {e : Expr} {t : Tree} {v l : Value} {w : Operand} {d d₁ d' d₂ : Draft}

theorem lowerArith_ne_ok : (lowerArith .div l (.ready (.literal 0))).run d ≠ .ok v d' := by
  intro h
  obtain ⟨rhs, d₁, hrhs, h⟩ := run_bind_ok h
  cases hrhs
  obtain ⟨lhs, d₂, _, h⟩ := run_bind_ok h
  rw [if_pos ⟨rfl, rfl⟩] at h
  cases h

theorem Expr.noZeroDivisor_of_lower_of_collect
    (hc : ∀ {d d₁ d₂ d' t v}, e.collect.run d = .ok t d₁ → t.lower.run d₂ = .ok v d' → e.NoZeroDivisor)
    (h : e.lower.run d = .ok w d') : e.NoZeroDivisor := by
  obtain ⟨t, d₁, ht, h⟩ := run_bind_ok h
  obtain ⟨v, d₂, hv, _⟩ := run_bind_ok h
  exact hc ht hv

theorem Expr.noZeroDivisor_of_collect (hc : e.collect.run d = .ok t d₁) (ht : t.lower.run d₂ = .ok v d') :
    e.NoZeroDivisor := by
  induction e generalizing t v d d₁ d' d₂ with
  | lit n => trivial
  | var x => trivial
  | op a l r ihl ihr =>
    obtain ⟨lt, _, hl, hc⟩ := run_bind_ok hc
    obtain ⟨rt, _, hr, hc⟩ := run_bind_ok hc
    cases hc
    obtain ⟨lv, _, hlt, ht⟩ := run_bind_ok ht
    obtain ⟨rv, _, hrt, ht⟩ := run_bind_ok ht
    refine ⟨ihl hl hlt, ihr hr hrt, ?_⟩
    rintro ⟨rfl, rfl⟩
    cases hr
    cases hrt
    exact lowerArith_ne_ok ht
  | choose s z p n ihs ihz ihp ihn =>
    obtain ⟨sw, _, zw, _, pw, _, nw, _, hs, hz, hp, hn, _, _⟩ := collect_choose_ok hc
    exact ⟨noZeroDivisor_of_lower_of_collect ihs hs, noZeroDivisor_of_lower_of_collect ihz hz,
      noZeroDivisor_of_lower_of_collect ihp hp, noZeroDivisor_of_lower_of_collect ihn hn⟩

theorem Expr.lower_accepted_iff (ho : e.Over d.vars) :
    (∃ w d', e.lower.run d = .ok w d') ↔ e.NoZeroDivisor := by
  constructor
  · rintro ⟨w, d', h⟩
    exact noZeroDivisor_of_lower_of_collect noZeroDivisor_of_collect h
  · exact lower_accepted ho

end

/-! ## Expressions -/

theorem Expr.lower_settles {e : Expr} {w : Operand} {d d' : Draft} {env : Env} {m : Machine}
    (h : e.lower.run d = .ok w d') (ho : e.Over d.vars) (hd : d.code = []) (hu : UniqueLabels d'.code)
    (hm : m.At d env) : m.Settles d'.code d'.code.length w (e.eval? env) := by
  rcases lower_delivers hu h ho hm List.prefix_rfl with ⟨m', ha, hv⟩ | ⟨hf, ho⟩
  · obtain ⟨n, hn⟩ := hv.leaf_isSome
    rw [hn] at hv ⊢
    exact ⟨m', ha.reaches, ha.stands.pc, hv.value?, ha.keeps.vars, ha.keeps.printed⟩
  · rw [ho]
    obtain ⟨m', hr, hdiv, hp⟩ := hf.divides
    refine ⟨m', hr, ?_, ?_, hdiv, by rw [hdiv.step_eq, hp]⟩
    · rw [hm.pc, hd]
      exact Nat.zero_le _
    · obtain ⟨_, _, _, _, hi, _, _⟩ := hdiv
      exact (List.getElem?_eq_some_iff.mp hi).1

theorem uniqueLabels_of_lowerExpr {ts : List Token} {v : Operand} {d d' : Draft} {cs : List Instr}
    (h : (lowerExpr ts).run d = .ok v d') (hc : Covers d.vars ts) (hd : d'.code = d.code ++ cs) :
    UniqueLabels cs := by
  obtain ⟨ds, he, _⟩ := lowerExpr_evaluates hc h
  obtain rfl : cs = ds := List.append_cancel_left (hd.symm.trans he.code_eq)
  intro l
  rw [he.fragment.defs]
  split <;> omega

/-- An expression over variables that have their slots is accepted just if it divides by no literal zero.
Then its code, wherever it stands and whatever the variables hold, computes its value, or stops at a
division by zero if it has none. -/
theorem lowerExpr_settles {e : Expr} {ts : List Token} {d : Draft} (h : Spelled 1 e ts)
    (hc : Covers d.vars ts) :
    ((∃ v d', (lowerExpr ts).run d = .ok v d') ↔ e.NoZeroDivisor) ∧
    ∀ v d', (lowerExpr ts).run d = .ok v d' → ∃ cs, d'.code = d.code ++ cs ∧ UniqueLabels cs ∧
      ∀ front back, UniqueLabels (front ++ cs ++ back) → ∀ (m : Machine) (env : Env),
        m.pc = front.length → (∀ x ∈ d.vars, m.slots (.var x) = some (env x)) →
        m.Settles (front ++ cs ++ back) (front.length + cs.length) v (e.eval? env) := by
  have ho := h.over hc
  have heq := lowerExpr_spelled h
  refine ⟨by rw [heq]; exact Expr.lower_accepted_iff ho, ?_⟩
  intro v d' hr
  rw [heq] at hr
  obtain ⟨d₁, hd₁, hcode⟩ := (Expr.movable_lower_of_collect e.movable_collect).alone hr
  have hu : UniqueLabels d₁.code := uniqueLabels_of_lowerExpr (heq ▸ hr) hc hcode
  refine ⟨d₁.code, hcode, hu, ?_⟩
  intro front back hunique m env hpc hvars
  let m₀ : Machine := { m with pc := 0 }
  have hm₀ : m₀.moved front.length = m := by simp [m₀, Machine.moved, ← hpc]
  have hstart : m₀.At { d with code := [] } env := ⟨rfl, hvars⟩
  rw [← hm₀]
  exact (Expr.lower_settles hd₁ ho rfl hu hstart).moved hunique rfl

theorem lowerExpr_settles_division :
    let ts : List Token := ["8", "/", "(", "x", "-", "-", "2147483648", ")"]
    ∃ v d', (lowerExpr ts).run { vars := ["x"] } = .ok v d' ∧
      (∃ m', Reaches d'.code { slots := fun _ => some (-2147483648) } m' ∧ m'.Divides d'.code) ∧
      ∃ m', Reaches d'.code { slots := fun _ => some (-2147483647) } m' ∧ m'.value? v = some 8 := by
  intro ts
  have hdivisor : Spelled 1 (.op .sub (.var "x") (.lit (-2147483648))) ["x", "-", "-", "2147483648"] :=
    .op (a := .sub) (.lower (.lower (.var rfl))) (.lower (.negative rfl rfl))
  have hs : Spelled 1 (.op .div (.lit 8) (.op .sub (.var "x") (.lit (-2147483648)))) ts :=
    .lower (.op (a := .div) (.lower (.int rfl rfl)) (.paren hdivisor))
  have hc : Covers ({ vars := ["x"] } : Draft).vars ts := by
    unfold Covers
    decide
  obtain ⟨haccepted, hsettles⟩ := lowerExpr_settles hs hc
  obtain ⟨v, d', hr⟩ := haccepted.mpr ⟨trivial, ⟨trivial, trivial, by decide⟩, by decide⟩
  obtain ⟨cs, hcode, hu, hrun⟩ := hsettles v d' hr
  obtain rfl : d'.code = cs := hcode
  have hrun := hrun [] [] (by simpa using hu)
  simp only [List.nil_append, List.append_nil] at hrun
  obtain ⟨m₁, h₁, _, _, hd₁, _⟩ := hrun { slots := fun _ => some (-2147483648) } (fun _ => -2147483648) rfl
    fun _ _ => rfl
  obtain ⟨m₂, h₂, _, hv₂, _⟩ := hrun { slots := fun _ => some (-2147483647) } (fun _ => -2147483647) rfl
    fun _ _ => rfl
  exact ⟨v, d', hr, ⟨m₁, h₁, hd₁⟩, m₂, h₂, hv₂⟩

end SlotCompiler
