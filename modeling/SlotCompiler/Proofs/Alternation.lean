import SlotCompiler.Proofs.Groups
import SlotCompiler.Proofs.Shunting

/-!
# Terms that make up a tree

Reordering loses no value and no operator, so terms that run to one value have one value more than
operators. Nothing in a run looks at the order of the two. Where no operand stands right after
another one, though, the numbers leave only one way to place the operators, and the terms are those
of a tree: `exists_tree_of_lowerPostfix`.
-/

namespace SlotCompiler

/-! ## What reordering keeps -/

@[simp] def Term.value? : Term → Option Value
  | .value v => some v
  | _ => none

@[simp] def Term.op? : Term → Option Arith
  | .op a => some a
  | _ => none

@[simp] def Cell.value? : Cell → Option Value
  | .value v => some v
  | .op _ => none

@[simp] def Cell.op? : Cell → Option Arith
  | .value _ => none
  | .op a => some a

@[simp] def Pending.op? : Pending → Option Arith
  | .op a => some a
  | .paren => none

@[simp] theorem Cell.value?_comp_op : Cell.value? ∘ Cell.op = fun _ => none := rfl

@[simp] theorem Cell.op?_comp_op : Cell.op? ∘ Cell.op = some := rfl

@[simp] theorem Pending.op?_comp_op : Pending.op? ∘ Pending.op = some := rfl

theorem exists_of_release (rank : Nat) (stack : List Pending) : ∃ ops : List Arith,
    (release rank stack).1 = ops.map .op ∧ stack = ops.map .op ++ (release rank stack).2 := by
  induction stack with
  | nil => exact ⟨[], rfl, rfl⟩
  | cons p stack ih =>
    cases p with
    | paren => exact ⟨[], rfl, rfl⟩
    | op a =>
      unfold release
      split
      · obtain ⟨ops, hout, hstack⟩ := ih
        exact ⟨a :: ops, congrArg (Cell.op a :: ·) hout, congrArg (Pending.op a :: ·) hstack⟩
      · exact ⟨[], rfl, rfl⟩

theorem exists_of_closeParen {stack left : List Pending} {out : List Cell}
    (h : closeParen stack = some (out, left)) : ∃ ops : List Arith,
    out = ops.map .op ∧ stack = ops.map .op ++ .paren :: left := by
  induction stack generalizing out with
  | nil => cases h
  | cons p stack ih =>
    cases p with
    | paren => cases h; exact ⟨[], rfl, rfl⟩
    | op a =>
      obtain ⟨⟨o, l⟩, ho, he⟩ := Option.map_eq_some_iff.mp h
      cases he
      obtain ⟨ops, rfl, rfl⟩ := ih ho
      exact ⟨a :: ops, rfl, rfl⟩

theorem exists_of_drain {stack : List Pending} {out : List Cell} (h : drain stack = some out) :
    ∃ ops : List Arith, out = ops.map .op ∧ stack = ops.map .op := by
  induction stack generalizing out with
  | nil => cases h; exact ⟨[], rfl, rfl⟩
  | cons p stack ih =>
    cases p with
    | paren => cases h
    | op a =>
      obtain ⟨o, ho, rfl⟩ := Option.map_eq_some_iff.mp h
      obtain ⟨ops, rfl, rfl⟩ := ih ho
      exact ⟨a :: ops, rfl, rfl⟩

section
variable {stack : List Pending} {terms : List Term} {cells : List Cell}

theorem values_toPostfix (h : toPostfix stack terms = some cells) :
    cells.filterMap Cell.value? = terms.filterMap Term.value? := by
  induction terms generalizing stack cells with
  | nil =>
    obtain ⟨ops, rfl, _⟩ := exists_of_drain h
    simp
  | cons t terms ih =>
    cases t with
    | value v =>
      obtain ⟨out, ho, rfl⟩ := Option.map_eq_some_iff.mp h
      simpa [List.filterMap_cons] using ih ho
    | op a =>
      obtain ⟨ops, hout, _⟩ := exists_of_release a.rank stack
      obtain ⟨out, ho, rfl⟩ := Option.map_eq_some_iff.mp h
      simpa [hout, List.filterMap_cons] using ih ho
    | opening =>
      have h : toPostfix (.paren :: stack) terms = some cells := h
      simpa [List.filterMap_cons] using ih h
    | closing =>
      obtain ⟨⟨out, left⟩, hc, h⟩ := Option.bind_eq_some_iff.mp h
      obtain ⟨out', ho, rfl⟩ := Option.map_eq_some_iff.mp h
      obtain ⟨ops, rfl, _⟩ := exists_of_closeParen hc
      simpa [List.filterMap_cons] using ih ho

/-- The operators change places: those on the stack come in wherever they are taken off. -/
theorem ops_toPostfix (h : toPostfix stack terms = some cells) :
    (cells.filterMap Cell.op?).Perm (stack.filterMap Pending.op? ++ terms.filterMap Term.op?) := by
  induction terms generalizing stack cells with
  | nil =>
    obtain ⟨ops, rfl, rfl⟩ := exists_of_drain h
    simp
  | cons t terms ih =>
    cases t with
    | value v =>
      obtain ⟨out, ho, rfl⟩ := Option.map_eq_some_iff.mp h
      simpa [List.filterMap_cons] using ih ho
    | op a =>
      obtain ⟨ops, hout, hstack⟩ := exists_of_release a.rank stack
      obtain ⟨out, ho, rfl⟩ := Option.map_eq_some_iff.mp h
      have hrest := ((ih ho).trans List.perm_middle.symm).append_left ops
      have hops := congrArg (List.filterMap Pending.op?) hstack
      simpa [hout, hops, List.filterMap_cons] using hrest
    | opening =>
      have h : toPostfix (.paren :: stack) terms = some cells := h
      simpa [List.filterMap_cons] using ih h
    | closing =>
      obtain ⟨⟨out, left⟩, hc, h⟩ := Option.bind_eq_some_iff.mp h
      obtain ⟨out', ho, rfl⟩ := Option.map_eq_some_iff.mp h
      obtain ⟨ops, rfl, rfl⟩ := exists_of_closeParen hc
      simpa [List.filterMap_cons] using (ih ho).append_left ops

end

theorem length_of_runPostfix {stack : List Value} {cells : List Cell} {v : Value} {d d' : Draft}
    (h : (runPostfix stack cells).run d = .ok v d') :
    stack.length + (cells.filterMap Cell.value?).length = (cells.filterMap Cell.op?).length + 1 := by
  fun_induction runPostfix stack cells generalizing d with
  | case1 stack w cells ih =>
    have := ih h
    simp only [List.length_cons] at this
    simp only [Cell.value?, Cell.op?, List.filterMap_cons, List.length_cons]
    omega
  | case2 r l stack a cells ih =>
    obtain ⟨w, d₁, _, h⟩ := run_bind_ok h
    have := ih w h
    simp only [List.length_cons] at this
    simp only [Cell.value?, Cell.op?, List.filterMap_cons, List.length_cons]
    omega
  | case3 w => rfl
  | case4 => cases h

/-! ## Alternating terms -/

/-- No operand starts right where another one has ended; `after` says whether one ends just before
the terms. -/
def Sparse : Bool → List Term → Prop
  | _, [] => True
  | after, .value _ :: ts => after = false ∧ Sparse true ts
  | _, .op _ :: ts => Sparse false ts
  | after, .opening :: ts => after = false ∧ Sparse false ts
  | _, .closing :: ts => Sparse true ts

/-- Operands and operators take turns up to an operand at the end, and the parentheses match,
`depth` of them being open before the terms. -/
inductive Alternates : Nat → Bool → List Term → Prop
  | done : Alternates 0 true []
  | value {depth : Nat} {v : Value} {ts : List Term} :
    Alternates depth true ts → Alternates depth false (.value v :: ts)
  | op {depth : Nat} {a : Arith} {ts : List Term} :
    Alternates depth false ts → Alternates depth true (.op a :: ts)
  | opening {depth : Nat} {ts : List Term} :
    Alternates (depth + 1) false ts → Alternates depth false (.opening :: ts)
  | closing {depth : Nat} {ts : List Term} :
    Alternates depth true ts → Alternates (depth + 1) true (.closing :: ts)

/-- Sparse terms have at most one value more than operators, and if they have one more, then every
operator stands between two operands. -/
theorem Sparse.alternates {depth : Nat} {after : Bool} {ts : List Term} (h : Sparse after ts)
    (hn : nestTerms depth ts = some 0) :
    (ts.filterMap Term.value?).length + after.toNat ≤ (ts.filterMap Term.op?).length + 1 ∧
      ((ts.filterMap Term.value?).length + after.toNat = (ts.filterMap Term.op?).length + 1 →
        Alternates depth after ts) := by
  induction ts generalizing depth after with
  | nil =>
    cases hn
    cases after with
    | false => simp
    | true => exact ⟨Nat.le_refl _, fun _ => .done⟩
  | cons t ts ih =>
    cases t with
    | value v =>
      obtain ⟨rfl, h⟩ := h
      obtain ⟨hle, ha⟩ := ih h hn
      simp only [Term.value?, Term.op?, List.filterMap_cons, List.length_cons, Bool.toNat_true,
        Bool.toNat_false] at hle ha ⊢
      exact ⟨by omega, fun he => .value (ha (by omega))⟩
    | op a =>
      obtain ⟨hle, ha⟩ := ih h hn
      simp only [Term.value?, Term.op?, List.filterMap_cons, List.length_cons, Bool.toNat_false] at hle ha ⊢
      cases after with
      | false => simp only [Bool.toNat_false]; exact ⟨by omega, fun he => by omega⟩
      | true => simp only [Bool.toNat_true]; exact ⟨by omega, fun he => .op (ha (by omega))⟩
    | opening =>
      obtain ⟨rfl, h⟩ := h
      obtain ⟨hle, ha⟩ := ih h hn
      exact ⟨hle, fun he => .opening (ha he)⟩
    | closing =>
      cases depth with
      | zero => cases hn
      | succ depth =>
        obtain ⟨hle, ha⟩ := ih h hn
        simp only [Term.value?, Term.op?, List.filterMap_cons, Bool.toNat_true] at hle ha ⊢
        cases after with
        | false => simp only [Bool.toNat_false]; exact ⟨by omega, fun he => by omega⟩
        | true => exact ⟨hle, fun he => .closing (ha he)⟩

/-! ## Reading a tree -/

/-- What may stand behind a part of this level: no operator, or one that binds less tight. -/
def Looser (k : Nat) : List Term → Prop
  | .op a :: _ => a.rank < k
  | _ => True

def Fronts (k depth : Nat) (ts : List Term) : Prop :=
  ∃ t front rest, ts = front ++ rest ∧ Infix k t front ∧ Alternates depth true rest ∧ Looser k rest

section
variable {k n depth : Nat} {ts rest : List Term}

theorem Arith.rank_pos (a : Arith) : 0 < a.rank := by cases a <;> decide

theorem Arith.rank_lt (a : Arith) : a.rank < 3 := by cases a <;> decide

theorem Alternates.looser (h : Alternates depth true ts) : Looser 3 ts := by
  cases h with
  | done => trivial
  | op _ => exact Arith.rank_lt _
  | closing _ => trivial

theorem fronts_factor (ih : ∀ {depth ts}, ts.length < n → Alternates depth false ts → Fronts 1 depth ts)
    (hn : ts.length ≤ n) (h : Alternates depth false ts) : Fronts 3 depth ts := by
  cases h with
  | @value _ v ts h => exact ⟨.leaf v, [.value v], ts, rfl, .leaf v, h, h.looser⟩
  | @opening _ ts h =>
    obtain ⟨t, front, rest, rfl, ht, hr, hs⟩ := ih hn h
    cases hr with
    | op _ => exact absurd hs (Nat.not_lt_of_ge (Arith.rank_pos _))
    | @closing _ rest hr =>
      exact ⟨t, .opening :: (front ++ [.closing]), rest, by simp, .paren ht, hr, hr.looser⟩

/-- A part is extended by the operators of its level that follow, each with its right operand. -/
theorem Infix.fronts (ih : ∀ {depth ts}, ts.length < n → Alternates depth false ts → Fronts (k + 1) depth ts)
    {t : Tree} {front : List Term} (ht : Infix k t front) (hn : rest.length ≤ n)
    (hr : Alternates depth true rest) (hs : Looser (k + 1) rest) : Fronts k depth (front ++ rest) := by
  induction hm : rest.length using Nat.strong_induction_on generalizing t front rest with
  | _ m ihm =>
    cases hr with
    | done => exact ⟨t, front, [], rfl, ht, .done, trivial⟩
    | closing hr => exact ⟨t, front, _, rfl, ht, .closing hr, trivial⟩
    | @op _ a ts hr =>
      by_cases ha : a.rank = k
      · subst ha
        obtain ⟨r, right, rest, rfl, hright, hr, hs⟩ := ih hn hr
        simp only [List.length_cons, List.length_append] at hm hn
        have := ihm rest.length (by omega) (.node ht hright) (by omega) hr hs rfl
        rwa [List.append_assoc, List.cons_append] at this
      · exact ⟨t, front, _, rfl, ht, .op hr, Nat.lt_of_le_of_ne (Nat.le_of_lt_succ hs) ha⟩

theorem fronts_of_succ
    (ih : ∀ {depth ts}, ts.length ≤ n → Alternates depth false ts → Fronts (k + 1) depth ts)
    (hn : ts.length ≤ n) (h : Alternates depth false ts) : Fronts k depth ts := by
  obtain ⟨t, front, rest, rfl, ht, hr, hs⟩ := ih hn h
  rw [List.length_append] at hn
  exact Infix.fronts (fun hlt => ih (Nat.le_of_lt hlt)) ht.lower (by omega) hr hs

theorem Alternates.fronts (h : Alternates depth false ts) : Fronts 1 depth ts := by
  induction hn : ts.length using Nat.strong_induction_on generalizing depth ts with
  | _ n ih =>
    have hfactor {depth ts} (hn : ts.length ≤ n) (h : Alternates depth false ts) : Fronts 3 depth ts :=
      fronts_factor (fun hlt h => ih _ hlt h rfl) hn h
    have hproduct {depth ts} (hn : ts.length ≤ n) (h : Alternates depth false ts) : Fronts 2 depth ts :=
      fronts_of_succ hfactor hn h
    exact fronts_of_succ hproduct (Nat.le_of_eq hn) h

theorem Alternates.exists_tree (h : Alternates 0 false ts) : ∃ t, Infix 1 t ts := by
  obtain ⟨t, front, rest, rfl, ht, hr, hs⟩ := h.fronts
  cases hr with
  | done => exact ⟨t, by rwa [List.append_nil]⟩
  | op _ => exact absurd hs (Nat.not_lt_of_ge (Arith.rank_pos _))

end

theorem exists_tree_of_lowerPostfix {terms : List Term} {v : Operand} {d d' : Draft}
    (h : (lowerPostfix terms).run d = .ok v d') (hs : Sparse false terms) : ∃ t, Infix 1 t terms := by
  unfold lowerPostfix at h
  split at h
  · cases h
  · rename_i cells hc
    obtain ⟨w, d₁, hw, _⟩ := run_bind_ok h
    have hrun := length_of_runPostfix hw
    have hops := (ops_toPostfix hc).length_eq
    rw [values_toPostfix hc, hops] at hrun
    obtain ⟨_, ha⟩ := hs.alternates (nestTerms_of_toPostfix hc)
    exact (ha (by simpa using hrun)).exists_tree

end SlotCompiler
