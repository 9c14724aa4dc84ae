import Mathlib
import SlotCompiler.Listing
import SlotCompiler.Program.Basic
import SlotCompiler.Proofs.Cutting

/-!
# How drafts grow

A successful lowering only appends code, and all it appends is put together from a few shapes.
`Evaluates` lists what lowering an expression does to a draft, one move after the other; `Emits`
puts the statements on top of it. `emits_of_lowerProgram`: every accepted program is such a growth
from the empty draft.
-/

namespace SlotCompiler

/-! ## Runs that succeed -/

section
variable {ε ε' σ α β : Type}

theorem run_bind_ok {x : EStateM ε σ α} {f : α → EStateM ε σ β} {s s' : σ} {b : β}
    (h : (x >>= f).run s = .ok b s') : ∃ a s₁, x.run s = .ok a s₁ ∧ (f a).run s₁ = .ok b s' := by
  rw [EStateM.run_bind] at h
  cases hx : x.run s with
  | ok a s₁ => rw [hx] at h; exact ⟨a, s₁, rfl, h⟩
  | error e s₁ => rw [hx] at h; cases h

theorem run_bind_of_ok {x : EStateM ε σ α} {s s₁ : σ} {a : α} (h : x.run s = .ok a s₁)
    (f : α → EStateM ε σ β) : (x >>= f).run s = (f a).run s₁ := by
  rw [EStateM.run_bind, h]

end

theorem run_atLine_ok {α : Type} {n : Nat} {x : EStateM Cause Draft α} {d d' : Draft} {a : α}
    (h : (atLine n x).run d = .ok a d') : x.run d = .ok a d' := by
  rw [atLine, EStateM.run_adaptExcept] at h
  cases hx : x.run d with
  | ok b d₁ => rw [hx] at h; cases h; rfl
  | error e d₁ => rw [hx] at h; cases h

theorem run_atLine_of_ok {α : Type} {n : Nat} {x : EStateM Cause Draft α} {d d' : Draft} {a : α}
    (h : x.run d = .ok a d') : (atLine n x).run d = .ok a d' := by
  rw [atLine, EStateM.run_adaptExcept, h]

namespace Draft

@[simp] theorem push_temps (d : Draft) (cs : List Instr) : (d.push cs).temps = d.temps := rfl

@[simp] theorem push_ifs (d : Draft) (cs : List Instr) : (d.push cs).ifs = d.ifs := rfl

@[simp] theorem push_whiles (d : Draft) (cs : List Instr) : (d.push cs).whiles = d.whiles := rfl

@[simp] theorem push_chooses (d : Draft) (cs : List Instr) : (d.push cs).chooses = d.chooses := rfl

@[simp] theorem push_vars (d : Draft) (cs : List Instr) : (d.push cs).vars = d.vars := rfl

@[simp] theorem push_code (d : Draft) (cs : List Instr) : (d.push cs).code = d.code ++ cs := rfl

theorem allocate_of_mem {d : Draft} {x : String} (h : x ∈ d.vars) : d.allocate x = d := by
  rw [allocate, if_pos h]

theorem mem_allocate (d : Draft) (x : String) : x ∈ (d.allocate x).vars := by
  unfold allocate
  split
  · assumption
  · simp

theorem vars_subset_allocate (d : Draft) (x : String) : d.vars ⊆ (d.allocate x).vars := by
  unfold allocate
  split
  · exact List.Subset.refl _
  · exact List.subset_append_left ..

def grant (d : Draft) (x : String) : Draft :=
  { d with vars := d.vars ++ [x] }.push [.alloca (.var x), .store (.literal 0) (.var x)]

theorem allocate_of_not_mem {d : Draft} {x : String} (h : x ∉ d.vars) : d.allocate x = d.grant x := by
  rw [allocate, if_neg h, grant]

end Draft

/-! ## Expressions -/

/-- The temporary whose value an instruction defines. -/
def Instr.value? : Instr → Option Nat
  | .load dest _ => some dest
  | .arith dest _ _ _ => some dest
  | _ => none

/-- A literal, or a temporary whose value the code defines. -/
def Operand.KnownIn (cs : List Instr) : Operand → Prop
  | .literal _ => True
  | .temp t => ∃ i ∈ cs, i.value? = some t

theorem Operand.KnownIn.append {cs : List Instr} {v : Operand} (h : v.KnownIn cs)
    (ds : List Instr) : v.KnownIn (cs ++ ds) := by
  cases v with
  | literal n => trivial
  | temp t =>
    obtain ⟨i, hi, ht⟩ := h
    exact ⟨i, List.mem_append_left _ hi, ht⟩

theorem Operand.knownIn_last {i : Instr} {t : Nat} (h : i.value? = some t) (cs : List Instr) :
    (Operand.temp t).KnownIn (cs ++ [i]) :=
  ⟨i, by simp, h⟩

def selectCode (dest : Slot) (id isZero isPositive result : Nat) (s z p n : Operand) : List Instr :=
  [.alloca dest,
   .test isZero .zero s,
   .branch isZero (.chooseArm 0 id) (.chooseArm 1 id),
   .label (.chooseArm 0 id),
   .store z dest,
   .jump (.chooseEnd id),
   .label (.chooseArm 1 id),
   .test isPositive .positive s,
   .branch isPositive (.chooseArm 2 id) (.chooseArm 3 id),
   .label (.chooseArm 2 id),
   .store p dest,
   .jump (.chooseEnd id),
   .label (.chooseArm 3 id),
   .store n dest,
   .jump (.chooseEnd id),
   .label (.chooseEnd id),
   .load result dest]

namespace Draft

def takeTemp (d : Draft) : Draft := { d with temps := d.temps + 1 }

def load (d : Draft) (x : String) : Draft := d.takeTemp.push [.load (d.temps + 1) (.var x)]

def arith (d : Draft) (a : Arith) (l r : Operand) : Draft :=
  d.takeTemp.push [.arith (d.temps + 1) a l r]

def select (d : Draft) (dest : Nat) (s z p n : Operand) : Draft :=
  { d with temps := d.temps + 3, chooses := d.chooses + 1 }.push
    (selectCode (.temp dest) d.chooses (d.temps + 1) (d.temps + 2) (d.temps + 3) s z p n)

end Draft

theorem lowerSelect_run (dest : Nat) (s z p n : Operand) (d : Draft) :
    (lowerSelect (.temp dest) s z p n).run d = .ok (.temp (d.temps + 3)) (d.select dest s z p n) := by
  simp [-bind_pure_comp, lowerSelect, Draft.select, selectCode, Draft.push]

/-- The code is lowered from `d` on, and the draft is then the last one. Only variables of `names` get
a slot. The temporaries in the list are taken for choices that have not been emitted yet, the
innermost first. -/
inductive Evaluates (names : List String) (d : Draft) : List Nat → List Instr → Draft → Prop
  | start : Evaluates names d [] [] d
  | grant {ps : List Nat} {cs : List Instr} {d' : Draft} {x : String} :
    Evaluates names d ps cs d' → Token.isName x → x ∈ names → x ∉ d'.vars →
    Evaluates names d ps (cs ++ [.alloca (.var x), .store (.literal 0) (.var x)]) (d'.grant x)
  | load {ps : List Nat} {cs : List Instr} {d' : Draft} {x : String} :
    Evaluates names d ps cs d' → x ∈ d'.vars →
    Evaluates names d ps (cs ++ [.load (d'.temps + 1) (.var x)]) (d'.load x)
  | arith {ps : List Nat} {cs : List Instr} {d' : Draft} {a : Arith} {l r : Operand} :
    Evaluates names d ps cs d' → l.KnownIn cs → r.KnownIn cs →
    Evaluates names d ps (cs ++ [.arith (d'.temps + 1) a l r]) (d'.arith a l r)
  | reserve {ps : List Nat} {cs : List Instr} {d' : Draft} :
    Evaluates names d ps cs d' → Evaluates names d ((d'.temps + 1) :: ps) cs d'.takeTemp
  | select {ps : List Nat} {cs : List Instr} {d' : Draft} {dest : Nat} {s z p n : Operand} :
    Evaluates names d (dest :: ps) cs d' →
    s.KnownIn cs → z.KnownIn cs → p.KnownIn cs → n.KnownIn cs →
    Evaluates names d ps
      (cs ++ selectCode (.temp dest) d'.chooses (d'.temps + 1) (d'.temps + 2) (d'.temps + 3) s z p n)
      (d'.select dest s z p n)

theorem Evaluates.code_eq {names : List String} {d d' : Draft} {ps : List Nat} {cs : List Instr}
    (h : Evaluates names d ps cs d') : d'.code = d.code ++ cs := by
  induction h with
  | start => simp
  | grant _ _ _ _ ih => simp [Draft.grant, ih]
  | load _ _ ih => simp [Draft.load, Draft.takeTemp, ih]
  | arith _ _ _ ih => simp [Draft.arith, Draft.takeTemp, ih]
  | reserve _ ih => simpa [Draft.takeTemp] using ih
  | select _ _ _ _ _ ih => simp [Draft.select, ih]

section
variable {names : List String} {d d' : Draft} {ps : List Nat} {cs : List Instr}
  (h : Evaluates names d ps cs d')
include h

theorem Evaluates.vars_subset : d.vars ⊆ d'.vars := by
  induction h with
  | start => exact List.Subset.refl _
  | grant _ _ _ _ ih => exact fun x hx => List.mem_append_left _ (ih hx)
  | load _ _ ih => exact ih
  | arith _ _ _ ih => exact ih
  | reserve _ ih => exact ih
  | select _ _ _ _ _ ih => exact ih

theorem Evaluates.vars_eq (hn : names ⊆ d.vars) : d'.vars = d.vars := by
  induction h with
  | start => rfl
  | grant _ _ hx hm ih => exact absurd (ih ▸ hn hx) hm
  | load _ _ ih => exact ih
  | arith _ _ _ ih => exact ih
  | reserve _ ih => exact ih
  | select _ _ _ _ _ ih => exact ih

end

/-- Lowering has gone on from `cs` to a longer code, and `P` holds of that. -/
def Evaluates.Extends (names : List String) (d : Draft) (ps : List Nat) (cs : List Instr) (d' : Draft)
    (P : List Instr → Prop) : Prop :=
  ∃ ds, Evaluates names d ps (cs ++ ds) d' ∧ P (cs ++ ds)

/-- All names among the tokens are in the list. -/
def Covers (names : List String) (ts : List Token) : Prop := ∀ t ∈ ts, t.isName → t ∈ names

theorem Covers.subset {names : List String} {ts us : List Token} (h : Covers names ts)
    (hs : us ⊆ ts) : Covers names us :=
  fun t ht => h t (hs ht)

section
variable {names : List String} {d d₁ d₂ : Draft} {ps : List Nat} {cs : List Instr}

theorem declare_evaluates {x : Token} {slot : Slot} (h : Evaluates names d ps cs d₁)
    (hn : x.isName → x ∈ names) (hr : (declare x).run d₁ = .ok slot d₂) :
    Evaluates.Extends names d ps cs d₂ fun _ => slot = .var x ∧ x ∈ d₂.vars := by
  unfold declare at hr
  split at hr
  · rename_i hx
    cases hr
    by_cases hm : x ∈ d₁.vars
    · refine ⟨[], ?_, rfl, ?_⟩
      · simpa [Draft.allocate_of_mem hm] using h
      · exact Draft.mem_allocate ..
    · refine ⟨[.alloca (.var x), .store (.literal 0) (.var x)], ?_, rfl, ?_⟩
      · simpa [Draft.allocate_of_not_mem hm] using h.grant hx (hn hx) hm
      · exact Draft.mem_allocate ..
  · cases hr

theorem loadVar_evaluates {x : Token} {v : Operand} (h : Evaluates names d ps cs d₁)
    (hn : x.isName → x ∈ names) (hr : (loadVar x).run d₁ = .ok v d₂) :
    Evaluates.Extends names d ps cs d₂ fun ds => v.KnownIn ds := by
  obtain ⟨slot, d', hd, hr⟩ := run_bind_ok hr
  obtain ⟨ds, he, rfl, hx⟩ := declare_evaluates h hn hd
  cases hr
  refine ⟨ds ++ [.load (d'.temps + 1) (.var x)], ?_, ?_⟩
  · rw [← List.append_assoc]; exact he.load hx
  · rw [← List.append_assoc]; exact Operand.knownIn_last rfl _

/-- The value is there, or can be loaded from a variable of the list. -/
def Value.Usable (names : List String) (cs : List Instr) : Value → Prop
  | .ready v => v.KnownIn cs
  | .var x => x ∈ names

theorem Value.Usable.append {v : Value} (h : v.Usable names cs) (ds : List Instr) :
    v.Usable names (cs ++ ds) := by
  cases v with
  | ready v => exact Operand.KnownIn.append h ds
  | var x => exact h

theorem fetch_evaluates {w : Value} {v : Operand} (h : Evaluates names d ps cs d₁) (hw : w.Usable names cs)
    (hr : w.fetch.run d₁ = .ok v d₂) : Evaluates.Extends names d ps cs d₂ fun ds => v.KnownIn ds := by
  cases w with
  | ready u => cases hr; exact ⟨[], by simpa using h, Operand.KnownIn.append hw []⟩
  | var x => exact loadVar_evaluates h (fun _ => hw) hr

theorem lowerArith_evaluates {a : Arith} {l r v : Value} (h : Evaluates names d ps cs d₁)
    (hl : l.Usable names cs) (hr : r.Usable names cs) (hv : (lowerArith a l r).run d₁ = .ok v d₂) :
    Evaluates.Extends names d ps cs d₂ fun ds => v.Usable names ds := by
  obtain ⟨rhs, d', hrhs, hv⟩ := run_bind_ok hv
  obtain ⟨lhs, d'', hlhs, hv⟩ := run_bind_ok hv
  obtain ⟨ds, he, hk⟩ := fetch_evaluates h hr hrhs
  obtain ⟨es, he', hk'⟩ := fetch_evaluates he (hl.append ds) hlhs
  split at hv
  · cases hv
  · cases hv
    refine ⟨ds ++ es ++ [.arith (d''.temps + 1) a lhs rhs], ?_, ?_⟩
    · rw [← List.append_assoc, ← List.append_assoc]; exact he'.arith hk' (hk.append es)
    · rw [← List.append_assoc]; exact Operand.knownIn_last rfl _

theorem runPostfix_evaluates {cells : List Cell} {stack : List Value} {v : Value}
    (h : Evaluates names d ps cs d₁) (hs : ∀ w ∈ stack, w.Usable names cs)
    (hc : ∀ w, .value w ∈ cells → w.Usable names cs)
    (hr : (runPostfix stack cells).run d₁ = .ok v d₂) :
    Evaluates.Extends names d ps cs d₂ fun ds => v.Usable names ds := by
  induction cells generalizing stack cs d₁ with
  | nil =>
    match stack, hr with
    | [w], hr => cases hr; exact ⟨[], by simpa using h, by simpa using hs⟩
  | cons c cells ih =>
    cases c with
    | value w =>
      refine ih h ?_ (fun u hu => hc u (.tail _ hu)) hr
      rintro u (_ | ⟨_, hu⟩)
      · exact hc _ (.head _)
      · exact hs u hu
    | op a =>
      match stack, hr with
      | r :: l :: stack, hr =>
        obtain ⟨w, d', hw, hr⟩ := run_bind_ok hr
        obtain ⟨ds, he, hk⟩ :=
          lowerArith_evaluates h (hs l (by simp)) (hs r (by simp)) hw
        have hstack : ∀ u ∈ w :: stack, u.Usable names (cs ++ ds) := by
          rintro u (_ | ⟨_, hu⟩)
          · exact hk
          · exact (hs u (.tail _ (.tail _ hu))).append ds
        obtain ⟨es, he', hv⟩ := ih he hstack (fun u hu => (hc u (.tail _ hu)).append ds) hr
        exact ⟨ds ++ es, by simpa using he', by simpa using hv⟩

end

section
variable {names : List String} {d d₁ d₂ : Draft} {ps : List Nat} {cs : List Instr}

theorem release_values {rank : Nat} {stack left : List Pending} {out : List Cell} {w : Value}
    (h : release rank stack = (out, left)) : .value w ∉ out := by
  induction stack generalizing out left with
  | nil => cases h; simp
  | cons p stack ih =>
    cases p with
    | paren => cases h; simp
    | op a =>
      rw [release] at h
      split at h
      · cases h; simpa using ih rfl
      · cases h; simp

theorem closeParen_values {stack left : List Pending} {out : List Cell} {w : Value}
    (h : closeParen stack = some (out, left)) : .value w ∉ out := by
  induction stack generalizing out left with
  | nil => cases h
  | cons p stack ih =>
    cases p with
    | paren => cases h; simp
    | op a =>
      obtain ⟨⟨o, l⟩, ho, he⟩ := Option.map_eq_some_iff.mp h
      cases he; simpa using ih ho

theorem drain_values {stack : List Pending} {out : List Cell} {w : Value}
    (h : drain stack = some out) : .value w ∉ out := by
  induction stack generalizing out with
  | nil => cases h; simp
  | cons p stack ih =>
    cases p with
    | paren => cases h
    | op a =>
      obtain ⟨o, ho, rfl⟩ := Option.map_eq_some_iff.mp h
      simpa using ih ho

theorem toPostfix_values {stack : List Pending} {terms : List Term} {cells : List Cell} {w : Value}
    (h : toPostfix stack terms = some cells) (hw : .value w ∈ cells) : .value w ∈ terms := by
  induction terms generalizing stack cells with
  | nil => exact absurd hw (drain_values h)
  | cons t terms ih =>
    cases t with
    | value u =>
      obtain ⟨out, ho, rfl⟩ := Option.map_eq_some_iff.mp h
      rcases List.mem_cons.mp hw with hw | hw
      · cases hw; exact .head _
      · exact .tail _ (ih ho hw)
    | op a =>
      obtain ⟨out, ho, rfl⟩ := Option.map_eq_some_iff.mp h
      rcases List.mem_append.mp hw with hw | hw
      · exact absurd hw (release_values rfl)
      · exact .tail _ (ih ho hw)
    | opening => exact .tail _ (ih h hw)
    | closing =>
      obtain ⟨⟨out, left⟩, hc, h⟩ := Option.bind_eq_some_iff.mp h
      obtain ⟨out', ho, rfl⟩ := Option.map_eq_some_iff.mp h
      rcases List.mem_append.mp hw with hw | hw
      · exact absurd hw (closeParen_values hc)
      · exact .tail _ (ih ho hw)

theorem lowerPostfix_evaluates {terms : List Term} {v : Operand} (h : Evaluates names d ps cs d₁)
    (ht : ∀ w, .value w ∈ terms → w.Usable names cs) (hr : (lowerPostfix terms).run d₁ = .ok v d₂) :
    Evaluates.Extends names d ps cs d₂ fun ds => v.KnownIn ds := by
  unfold lowerPostfix at hr
  split at hr
  · cases hr
  · rename_i cells hc
    obtain ⟨w, d', hw, hr⟩ := run_bind_ok hr
    obtain ⟨ds, he, hk⟩ :=
      runPostfix_evaluates h (by simp) (fun u hu => ht u (toPostfix_values hc hu)) hw
    obtain ⟨es, he', hv⟩ := fetch_evaluates he hk hr
    exact ⟨ds ++ es, by simpa using he', by simpa using hv⟩

theorem lowerSingle_evaluates {t : Token} {v : Operand} (h : Evaluates names d ps cs d₁)
    (hn : Covers names [t]) (hr : (lowerSingle t).run d₁ = .ok v d₂) :
    Evaluates.Extends names d ps cs d₂ fun ds => v.KnownIn ds := by
  unfold lowerSingle at hr
  split at hr
  · split at hr
    · cases hr; exact ⟨[], by simpa using h, trivial⟩
    · cases hr
  · exact loadVar_evaluates h (hn t (.head _)) hr

theorem ofToken_usable {t : Token} {w : Value} (hn : t.isName → t ∈ names)
    (h : Term.ofToken t = .ok (.value w)) : w.Usable names cs := by
  unfold Term.ofToken at h
  split at h
  · cases h
  · split at h
    · cases h
    split at h
    · cases h
    split at h
    · split at h
      · cases h; trivial
      · cases h
    split at h
    · rename_i hx; cases h; exact hn hx
    · cases h

theorem isName_minus (t : Token) : Token.isName ("-" ++ t) = false := by
  simp [Token.isName, isNameStart]

theorem Covers.joinSigns {prev : Option Token} {ts out : List Token} (hn : Covers names ts)
    (h : joinSigns prev ts = some out) : Covers names out := by
  fun_induction SlotCompiler.joinSigns prev ts generalizing out with
  | case1 => cases h; exact hn
  | case2 => cases h
  | case3 => cases h; exact hn
  | case4 prev t u ts _ ih =>
    obtain ⟨o, ho, rfl⟩ := Option.map_eq_some_iff.mp h
    rintro w (_ | ⟨_, hw⟩) hname
    · rw [isName_minus] at hname; cases hname
    · exact ih (hn.subset (by simp)) ho w hw hname
  | case5 prev t u ts _ ih =>
    obtain ⟨o, ho, rfl⟩ := Option.map_eq_some_iff.mp h
    rintro w (_ | ⟨_, hw⟩) hname
    · exact hn t (.head _) hname
    · exact ih (hn.subset (by simp)) ho w hw hname

theorem Covers.group? {ts inner rest : List Token} (hn : Covers names ts)
    (h : group? ts = some (inner, rest)) : Covers names inner ∧ Covers names rest := by
  rw [eq_of_group? h] at hn
  exact ⟨hn.subset fun t ht => by simp [ht], hn.subset fun t ht => by simp [ht]⟩

theorem Covers.arguments {ts a b c e : List Token} (hn : Covers names ts)
    (h : arguments ts = [a, b, c, e]) :
    Covers names a ∧ Covers names b ∧ Covers names c ∧ Covers names e := by
  rw [← intercalate_arguments ts, h] at hn
  simp only [List.intercalate_cons_cons, List.intercalate_singleton] at hn
  refine ⟨hn.subset ?_, hn.subset ?_, hn.subset ?_, hn.subset ?_⟩
  all_goals exact fun t ht => by simp [ht]

end

theorem lower_evaluates {names : List String} :
    (∀ ts, Covers names ts → ∀ {d d₁ d₂ ps cs v}, Evaluates names d ps cs d₁ →
      (lowerExpr ts).run d₁ = .ok v d₂ →
      Evaluates.Extends names d ps cs d₂ fun ds => v.KnownIn ds) ∧
    (∀ ts, Covers names ts → ∀ {d d₁ d₂ ps cs terms}, Evaluates names d ps cs d₁ →
      (lowerTerms ts).run d₁ = .ok terms d₂ →
      Evaluates.Extends names d ps cs d₂ fun ds => ∀ w, .value w ∈ terms → w.Usable names ds) ∧
    (∀ ts, Covers names ts → ∀ {d d₁ d₂ ps cs v}, Evaluates names d ps cs d₁ →
      (lowerChoose ts).run d₁ = .ok v d₂ →
      Evaluates.Extends names d ps cs d₂ fun ds => v.KnownIn ds) := by
  -- Five cases for expressions, five for terms, and the choice.
  refine lowerExpr.mutual_induct _ _ _ ?_ ?_ ?_ ?_ ?_ ?_ ?_ ?_ ?_ ?_ ?_
  · intro _ d d₁ d₂ ps cs v h hr
    rw [lowerExpr_nil] at hr; cases hr
  · intro t hn d d₁ d₂ ps cs v h hr
    rw [lowerExpr_singleton] at hr
    exact lowerSingle_evaluates h hn hr
  · intro t u ts hj _ d d₁ d₂ ps cs v h hr
    rw [lowerExpr_cons_cons, hj] at hr; cases hr
  · intro t u ts joined hj he _ d d₁ d₂ ps cs v h hr
    simp only [lowerExpr_cons_cons, hj, he] at hr; cases hr
  · intro t u ts joined hj he ih hn d d₁ d₂ ps cs v h hr
    simp only [lowerExpr_cons_cons, hj, he] at hr
    obtain ⟨terms, d', ht, hr⟩ := run_bind_ok hr
    obtain ⟨ds, hds, hk⟩ := ih (hn.joinSigns hj) h ht
    obtain ⟨es, hes, hv⟩ := lowerPostfix_evaluates hds hk hr
    exact ⟨ds ++ es, by simpa using hes, by simpa using hv⟩
  · intro _ d d₁ d₂ ps cs terms h hr
    rw [lowerTerms_nil] at hr; cases hr
    exact ⟨[], by simpa using h, by simp⟩
  · intro ts hg _ d d₁ d₂ ps cs terms h hr
    simp only [lowerTerms_cons, hg] at hr; cases hr
  · intro ts inner rest hg ihc iht hn d d₁ d₂ ps cs terms h hr
    simp only [lowerTerms_cons, hg] at hr
    obtain ⟨v, d', hv, hr⟩ := run_bind_ok hr
    obtain ⟨terms', d'', ht, hr⟩ := run_bind_ok hr
    cases hr
    obtain ⟨hi, hrest⟩ := (hn.subset (List.subset_cons_self ..)).group? hg
    obtain ⟨ds, hds, hk⟩ := ihc hi h hv
    obtain ⟨es, hes, hk'⟩ := iht hrest hds ht
    refine ⟨ds ++ es, by simpa using hes, ?_⟩
    rintro w (_ | ⟨_, hw⟩)
    · rw [← List.append_assoc]; exact Operand.KnownIn.append hk es
    · simpa using hk' w hw
  · intro t ts hc c ht _ d d₁ d₂ ps cs terms h hr
    simp only [lowerTerms_cons, hc, ht] at hr; cases hr
  · intro t ts hc term ht ih hn d d₁ d₂ ps cs terms h hr
    simp only [lowerTerms_cons, hc, ht] at hr
    obtain ⟨terms', d', ht', hr⟩ := run_bind_ok hr
    cases hr
    obtain ⟨ds, hds, hk⟩ := ih (hn.subset (List.subset_cons_self ..)) h ht'
    refine ⟨ds, hds, ?_⟩
    rintro w (_ | ⟨_, hw⟩)
    · exact ofToken_usable (hn t (.head _)) ht
    · exact hk w hw
  · intro ts ih₁ ih₂ ih₃ ih₄ hn d d₁ d₂ ps cs v h hr
    rw [lowerChoose_eq] at hr
    obtain ⟨dest, d', hd, hr⟩ := run_bind_ok hr
    cases hd
    split at hr
    · rename_i s z p n ha
      obtain ⟨n₁, n₂, n₃, n₄⟩ := hn.arguments ha
      obtain ⟨sv, e₁, hs, hr⟩ := run_bind_ok hr
      obtain ⟨zv, e₂, hz, hr⟩ := run_bind_ok hr
      obtain ⟨pv, e₃, hp, hr⟩ := run_bind_ok hr
      obtain ⟨nv, e₄, hn, hr⟩ := run_bind_ok hr
      obtain ⟨c₁, h₁, k₁⟩ := ih₁ s z p n ha n₁ h.reserve hs
      obtain ⟨c₂, h₂, k₂⟩ := ih₂ s z p n ha n₂ h₁ hz
      obtain ⟨c₃, h₃, k₃⟩ := ih₃ s z p n ha n₃ h₂ hp
      obtain ⟨c₄, h₄, k₄⟩ := ih₄ s z p n ha n₄ h₃ hn
      rw [lowerSelect_run] at hr
      cases hr
      have := h₄.select (((k₁.append c₂).append c₃).append c₄) ((k₂.append c₃).append c₄)
        (k₃.append c₄) k₄
      refine ⟨c₁ ++ c₂ ++ c₃ ++ c₄ ++ selectCode (.temp (d₁.temps + 1)) e₄.chooses (e₄.temps + 1)
        (e₄.temps + 2) (e₄.temps + 3) sv zv pv nv, by simpa using this, ?_⟩
      exact ⟨.load (e₄.temps + 3) (.temp (d₁.temps + 1)), by simp [selectCode], rfl⟩
    · cases hr

theorem lowerExpr_evaluates {names : List String} {d d' : Draft} {ts : List Token} {v : Operand}
    (hn : Covers names ts) (hr : (lowerExpr ts).run d = .ok v d') :
    ∃ cs, Evaluates names d [] cs d' ∧ v.KnownIn cs := by
  obtain ⟨cs, h, hv⟩ := lower_evaluates.1 ts hn .start hr
  exact ⟨cs, h, hv⟩

/-! ## Statements -/

namespace Control

/-- The id that the next statement of this kind gets. -/
def nextId (c : Control) (d : Draft) : Nat :=
  match c with
  | .branch => d.ifs
  | .loop => d.whiles

def claim (c : Control) (d : Draft) : Draft :=
  match c with
  | .branch => { d with ifs := d.ifs + 1 }
  | .loop => { d with whiles := d.whiles + 1 }

theorem fresh_run {ε : Type} (c : Control) (d : Draft) :
    (c.fresh : EStateM ε Draft Nat).run d = .ok (c.nextId d) (c.claim d) := by
  cases c <;> rfl

@[simp] theorem claim_code (c : Control) (d : Draft) : (c.claim d).code = d.code := by
  cases c <;> rfl

@[simp] theorem claim_vars (c : Control) (d : Draft) : (c.claim d).vars = d.vars := by
  cases c <;> rfl

/-- The code between a condition and the body behind it. -/
def guard (c : Control) (id test : Nat) (v : Operand) : List Instr :=
  [.test test .nonzero v, .branch test (c.body id) (c.exit id), .label (c.body id)]

def close (c : Control) (id : Nat) : List Instr := [.jump (c.back id), .label (c.exit id)]

end Control

/-- The code of a sequence of statements, lowered from the first draft to the last. -/
inductive Emits (names : List String) : Draft → List Instr → Draft → Prop
  | done {d : Draft} : Emits names d [] d
  | print {d d₁ d₂ : Draft} {cs rest : List Instr} {v : Operand} :
    Evaluates names d [] cs d₁ → v.KnownIn cs → Emits names (d₁.push [.print v]) rest d₂ →
    Emits names d (cs ++ .print v :: rest) d₂
  | assign {d d₁ d₂ : Draft} {cs rest : List Instr} {v : Operand} {x : String} :
    Evaluates names d [] cs d₁ → v.KnownIn cs → x ∈ d₁.vars →
    Emits names (d₁.push [.store v (.var x)]) rest d₂ →
    Emits names d (cs ++ .store v (.var x) :: rest) d₂
  | control {d d₁ d₂ d₃ : Draft} {cs body rest : List Instr} {v : Operand} (c : Control) :
    Evaluates names ((c.claim d).push (c.enter (c.nextId d))) [] cs d₁ → v.KnownIn cs →
    Emits names (d₁.takeTemp.push (c.guard (c.nextId d) (d₁.temps + 1) v)) body d₂ →
    Emits names (d₂.push (c.close (c.nextId d))) rest d₃ →
    Emits names d (c.enter (c.nextId d) ++ cs ++ c.guard (c.nextId d) (d₁.temps + 1) v ++ body ++
      c.close (c.nextId d) ++ rest) d₃

section
variable {names : List String} {d d₁ d₂ : Draft} {cs : List Instr}

theorem Emits.code_eq (h : Emits names d cs d₁) : d₁.code = d.code ++ cs := by
  induction h with
  | done => simp
  | print he _ _ ih => simp [ih, he.code_eq]
  | assign he _ _ _ ih => simp [ih, he.code_eq]
  | control c he _ _ _ ihb ihr => simp [ihr, ihb, he.code_eq, Draft.takeTemp]

theorem Emits.vars_eq (h : Emits names d cs d₁) (hn : names ⊆ d.vars) : d₁.vars = d.vars := by
  induction h with
  | done => rfl
  | print he _ _ ih =>
    have hv := he.vars_eq hn
    exact (ih (hv ▸ hn)).trans hv
  | assign he _ _ _ ih =>
    have hv := he.vars_eq hn
    exact (ih (hv ▸ hn)).trans hv
  | @control d _ _ _ _ _ _ _ c he _ _ _ ihb ihr =>
    have hv : _ = d.vars := (he.vars_eq (by simpa using hn)).trans (by simp)
    have hb := (ihb (by simpa [Draft.takeTemp, hv] using hn)).trans hv
    exact (ihr (hb ▸ hn)).trans hb

theorem lowerPrint_emits {expr : List Token} {rest : List Instr} (hn : Covers names expr)
    (hr : (lowerPrint expr).run d = .ok () d₁) (h : Emits names d₁ rest d₂) :
    ∃ cs, Emits names d cs d₂ := by
  obtain ⟨v, d', hv, hr⟩ := run_bind_ok hr
  cases hr
  obtain ⟨cs, he, hk⟩ := lowerExpr_evaluates hn hv
  exact ⟨_, .print he hk h⟩

theorem lowerAssign_emits {x : Token} {expr : List Token} {rest : List Instr}
    (hn : Covers names (x :: expr)) (hr : (lowerAssign x expr).run d = .ok () d₁)
    (h : Emits names d₁ rest d₂) : ∃ cs, Emits names d cs d₂ := by
  have hne : Covers names expr := hn.subset (List.subset_cons_self ..)
  obtain ⟨slot, d', hs, hr⟩ := run_bind_ok hr
  obtain ⟨v, d'', hv, hr⟩ := run_bind_ok hr
  cases hr
  obtain ⟨cs, he, rfl, hx⟩ := declare_evaluates .start (hn x (.head _)) hs
  obtain ⟨ds, he', hk⟩ := lower_evaluates.1 expr hne he hv
  obtain ⟨_, hv', _⟩ := lowerExpr_evaluates hne hv
  exact ⟨_, .assign he' hk (hv'.vars_subset hx) h⟩

end

namespace Form
variable {ts tokens expr : List Token} {x : Token} {c : Control}

theorem eq_of_blank (h : ofTokens ts = .ok .blank) : ts = [] := by
  unfold ofTokens at h
  split at h
  · rfl
  · simp only at h
    repeat' split at h
    all_goals cases h
  · cases h

theorem eq_of_print (h : ofTokens ts = .ok (.print expr)) : ts = "print" :: "(" :: (expr ++ [")"]) := by
  unfold ofTokens at h
  split at h
  · cases h
  · rename_i first second third more
    simp only at h
    split at h
    · cases h
    split at h
    · rename_i hp
      split at h
      · rename_i hg
        cases h
        obtain ⟨ys, hys⟩ := List.getLast?_eq_some_iff.mp hg.2
        rw [hp, hg.1, hys, List.dropLast_concat]
      · cases h
    repeat' split at h
    all_goals cases h
  · cases h

theorem eq_of_assign (h : ofTokens ts = .ok (.assign x expr)) : ts = x :: "=" :: expr := by
  unfold ofTokens at h
  split at h
  · cases h
  · simp only at h
    repeat' split at h
    all_goals cases h
    simp_all
  · cases h

theorem eq_of_control (h : ofTokens ts = .ok (.control c tokens)) : ts = c.keyword :: tokens := by
  unfold ofTokens at h
  split at h
  · cases h
  · simp only at h
    repeat' split at h
    all_goals cases h
    all_goals simp_all [Control.keyword]
  · cases h

end Form

section
variable {line : Line} {following : List Line} {c : Control} {tokens cond rest : List Token} {v : Operand}
  {block : Block} {d d₁ d₂ d' : Draft}

theorem lowerTest_run (body exit : Label) (h : (lowerExpr cond).run d = .ok v d₁) :
    (lowerTest cond body exit).run d = .ok () (d₁.takeTemp.push
      [.test (d₁.temps + 1) .nonzero v, .branch (d₁.temps + 1) body exit, .label body]) := by
  rw [lowerTest, run_bind_of_ok h]
  rfl

theorem run_lowerLines_control (hf : Form.ofTokens line.tokens = .ok (.control c tokens))
    (hg : group? tokens = some (cond, rest))
    (hv : (lowerExpr cond).run ((c.claim d).push (c.enter (c.nextId d))) = .ok v d₁)
    (hb : Block.cut ⟨line.number, rest⟩ following = .ok block)
    (hbody : (lowerLines block.body).run
      (d₁.takeTemp.push (c.guard (c.nextId d) (d₁.temps + 1) v)) = .ok () d₂) :
    (lowerLines (line :: following)).run d =
      (lowerLines block.remaining).run (d₂.push (c.close (c.nextId d))) := by
  have ht : (atLine line.number (lowerTest cond (c.body (c.nextId d)) (c.exit (c.nextId d)))).run
      ((c.claim d).push (c.enter (c.nextId d))) =
      .ok () (d₁.takeTemp.push (c.guard (c.nextId d) (d₁.temps + 1) v)) :=
    run_atLine_of_ok (lowerTest_run _ _ hv)
  simp only [lowerLines_cons, hf]
  rw [run_bind_of_ok (c.fresh_run d), run_bind_of_ok (emit_run ..)]
  simp only [hg]
  rw [run_bind_of_ok ht]
  simp only [hb]
  rw [run_bind_of_ok hbody, run_bind_of_ok (emit_run ..)]
  rfl

theorem lowerLines_control_ok (hf : Form.ofTokens line.tokens = .ok (.control c tokens))
    (h : (lowerLines (line :: following)).run d = .ok () d') :
    ∃ cond rest block v d₁ d₂, group? tokens = some (cond, rest) ∧
      (lowerExpr cond).run ((c.claim d).push (c.enter (c.nextId d))) = .ok v d₁ ∧
      Block.cut ⟨line.number, rest⟩ following = .ok block ∧
      (lowerLines block.body).run (d₁.takeTemp.push (c.guard (c.nextId d) (d₁.temps + 1) v)) =
        .ok () d₂ ∧
      (lowerLines block.remaining).run (d₂.push (c.close (c.nextId d))) = .ok () d' := by
  simp only [lowerLines_cons, hf] at h
  obtain ⟨id, _, hid, h⟩ := run_bind_ok h
  rw [c.fresh_run] at hid; cases hid
  obtain ⟨_, _, he, h⟩ := run_bind_ok h
  cases he
  split at h
  · cases h
  · rename_i cond rest hg
    obtain ⟨_, _, ht, h⟩ := run_bind_ok h
    obtain ⟨v, d₁, hv, ht⟩ := run_bind_ok (run_atLine_ok ht)
    cases ht
    split at h
    · cases h
    · rename_i block hb
      obtain ⟨_, d₂, hbody, h⟩ := run_bind_ok h
      obtain ⟨_, _, hc, hrest⟩ := run_bind_ok h
      cases hc
      exact ⟨cond, rest, block, v, d₁, d₂, hg, hv, hb, hbody, hrest⟩

end

section
variable {names : List String} {line : Line} {following : List Line} {c : Control}
  {tokens cond rest : List Token} {b : Block} (hn : Covers names (allTokens (line :: following)))
  (hf : Form.ofTokens line.tokens = .ok (.control c tokens))
  (hg : SlotCompiler.group? tokens = some (cond, rest))
include hn hf hg

theorem Covers.condition : Covers names cond := by
  have hsub : tokens ⊆ allTokens (line :: following) := fun t ht => by simp [Form.eq_of_control hf, ht]
  exact ((hn.subset hsub).group? hg).1

theorem Covers.block (hb : Block.cut ⟨line.number, rest⟩ following = .ok b) :
    Covers names (allTokens b.body) ∧ Covers names (allTokens b.remaining) := by
  have hall : Covers names (allTokens (⟨line.number, rest⟩ :: following)) := by
    refine hn.subset fun t ht => ?_
    rw [allTokens_cons] at ht ⊢
    rw [Form.eq_of_control hf, eq_of_group? hg]
    rcases List.mem_append.mp ht with ht | ht
    · exact List.mem_append_left _ (by simp [show t ∈ rest from ht])
    · exact List.mem_append_right _ ht
  rw [allTokens_of_cut hb] at hall
  exact ⟨hall.subset fun t ht => by simp [ht], hall.subset fun t ht => by simp [ht]⟩

end

theorem lowerLines_emits {names : List String} {lines : List Line} {d d' : Draft}
    (hn : Covers names (allTokens lines)) (h : (lowerLines lines).run d = .ok () d') :
    ∃ cs, Emits names d cs d' := by
  induction lines using lowerLines.induct generalizing d d' with
  | case1 =>
    rw [lowerLines_nil] at h; cases h
    exact ⟨[], .done⟩
  | case2 line following c hf => simp only [lowerLines_cons, hf] at h; cases h
  | case3 line following hf ih =>
    simp only [lowerLines_cons, hf] at h
    exact ih (hn.subset (by simp)) h
  | case4 line following expr hf ih =>
    simp only [lowerLines_cons, hf] at h
    obtain ⟨_, d₁, hp, h⟩ := run_bind_ok h
    obtain ⟨cs, hc⟩ := ih (hn.subset (by simp)) h
    refine lowerPrint_emits (hn.subset fun t ht => ?_) (run_atLine_ok hp) hc
    simp [Form.eq_of_print hf, ht]
  | case5 line following x expr hf ih =>
    simp only [lowerLines_cons, hf] at h
    obtain ⟨_, d₁, hp, h⟩ := run_bind_ok h
    obtain ⟨cs, hc⟩ := ih (hn.subset (by simp)) h
    refine lowerAssign_emits (hn.subset fun t ht => ?_) (run_atLine_ok hp) hc
    rcases List.mem_cons.mp ht with rfl | ht <;> simp [Form.eq_of_assign hf, *]
  | case6 line following c tokens hf ihb ihr =>
    obtain ⟨cond, rest, block, v, d₁, d₂, hg, hv, hb, hbody, hrest⟩ := lowerLines_control_ok hf h
    obtain ⟨hnb, hnr⟩ := hn.block hf hg hb
    obtain ⟨cs, hcs, hk⟩ := lowerExpr_evaluates (hn.condition hf hg) hv
    obtain ⟨bs, hbs⟩ := ihb cond rest hg block hb hnb hbody
    obtain ⟨rs, hrs⟩ := ihr cond rest hg block hb hnr hrest
    exact ⟨_, .control c hcs hk hbs hrs⟩

/-! ## Programs -/

def namesOf (lines : List Line) : List String := (allTokens lines).filter Token.isName

theorem covers_namesOf (lines : List Line) : Covers (namesOf lines) (allTokens lines) :=
  fun _ ht hx => List.mem_filter.mpr ⟨ht, hx⟩

theorem foldl_allocate_evaluates {names xs : List String} {d d' : Draft} {cs : List Instr}
    (h : Evaluates names d [] cs d') (hx : ∀ x ∈ xs, Token.isName x ∧ x ∈ names) :
    ∃ ds, Evaluates names d [] ds (xs.foldl Draft.allocate d') ∧
      ∀ x, x ∈ xs ∨ x ∈ d'.vars → x ∈ (xs.foldl Draft.allocate d').vars := by
  induction xs generalizing d' cs with
  | nil => exact ⟨cs, h, by simp⟩
  | cons x xs ih =>
    have hxs : ∀ y ∈ xs, Token.isName y ∧ y ∈ names := fun y hy => hx y (.tail _ hy)
    obtain ⟨hname, hmem⟩ := hx x (.head _)
    rw [List.foldl_cons]
    have key : ∃ cs', Evaluates names d [] cs' (d'.allocate x) := by
      by_cases hv : x ∈ d'.vars
      · rw [Draft.allocate_of_mem hv]; exact ⟨cs, h⟩
      · rw [Draft.allocate_of_not_mem hv]; exact ⟨_, h.grant hname hmem hv⟩
    obtain ⟨cs', h'⟩ := key
    obtain ⟨ds, hds, hvars⟩ := ih h' hxs
    refine ⟨ds, hds, fun y hy => hvars y ?_⟩
    rcases hy with hy | hy
    · rcases List.mem_cons.mp hy with rfl | hy
      · exact .inr (Draft.mem_allocate ..)
      · exact .inl hy
    · exact .inr (Draft.vars_subset_allocate d' x hy)

theorem hoist_evaluates (lines : List Line) :
    ∃ cs, Evaluates (namesOf lines) {} [] cs (Draft.hoist {} lines) ∧
      namesOf lines ⊆ (Draft.hoist {} lines).vars := by
  have hx : ∀ x ∈ namesOf lines, Token.isName x ∧ x ∈ namesOf lines :=
    fun x hx => ⟨(List.mem_filter.mp hx).2, hx⟩
  obtain ⟨cs, h, hv⟩ := foldl_allocate_evaluates .start hx
  exact ⟨cs, h, fun x hx => hv x (.inl hx)⟩

/-- All code of an accepted program is grown from the empty draft: first every variable gets its
slot, then come the statements. -/
theorem emits_of_lowerProgram {lines : List Line} {code : List Instr}
    (h : lowerProgram lines = .ok code) : ∃ names d d' cs ds, Evaluates names {} [] cs d ∧
      names ⊆ d.vars ∧ Emits names d ds d' ∧ code = cs ++ ds := by
  unfold lowerProgram at h
  split at h
  · rename_i d' hd
    cases h
    obtain ⟨cs, hc, hv⟩ := hoist_evaluates lines
    obtain ⟨ds, hds⟩ := lowerLines_emits (covers_namesOf lines) hd
    refine ⟨_, _, d', cs, ds, hc, hv, hds, ?_⟩
    rw [hds.code_eq, hc.code_eq]
    rfl
  · cases h

end SlotCompiler
