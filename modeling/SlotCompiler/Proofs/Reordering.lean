import SlotCompiler.Proofs.Alternation
import SlotCompiler.Proofs.Matching

/-!
# Reordering to postfix form

The stack of pending operators holds a parenthesis for each that is open, and nothing else on it can
make a reordering fail: it succeeds just if the parentheses of the terms are balanced. What comes out
holds the values in their order and every operator as often as before. Where the terms spell a tree,
it is the tree in post-order, whatever parentheses are added to those that the tree needs:
`toPostfix_exact`.
-/

namespace SlotCompiler

/-! ## Balanced terms -/

/-- No front of the terms closes more than it opens, and the whole closes as much as it opens. -/
structure BalancedTerms (terms : List Term) : Prop where
  covered : ∀ us, us <+: terms → us.count .closing ≤ us.count .opening
  closed : terms.count .opening = terms.count .closing

theorem depthScan_nestTerms : DepthScan .opening .closing nestTerms where
  nil _ := rfl
  up _ _ := rfl
  down _ _ := rfl
  below _ := rfl
  level {t} ho hc _ _ := by
    cases t with
    | value v => rfl
    | op a => rfl
    | opening => exact absurd rfl ho
    | closing => exact absurd rfl hc

theorem nestTerms_eq_zero_iff {terms : List Term} : nestTerms 0 terms = some 0 ↔ BalancedTerms terms := by
  have hscan := depthScan_nestTerms.eq_zero_iff (by decide) 0 terms
  simp only [Nat.zero_add] at hscan
  exact hscan.trans ⟨fun ⟨hcovered, hclosed⟩ => ⟨hcovered, hclosed⟩, fun h => ⟨h.covered, h.closed⟩⟩

section
variable {stack : List Pending}

theorem exists_closeParen (h : stack.count .paren ≠ 0) : ∃ parts, closeParen stack = some parts := by
  induction stack with
  | nil => exact absurd rfl h
  | cons p stack ih =>
    cases p with
    | paren => exact ⟨([], stack), rfl⟩
    | op a =>
      obtain ⟨⟨out, left⟩, hparts⟩ := ih (by simpa using h)
      exact ⟨(.op a :: out, left), by rw [closeParen, hparts]; rfl⟩

theorem exists_drain (h : stack.count .paren = 0) : ∃ cells, drain stack = some cells := by
  induction stack with
  | nil => exact ⟨[], rfl⟩
  | cons p stack ih =>
    cases p with
    | paren => simp at h
    | op a =>
      obtain ⟨cells, hcells⟩ := ih (by simpa using h)
      exact ⟨.op a :: cells, by rw [drain, hcells]; rfl⟩

theorem exists_toPostfix {terms : List Term} (h : nestTerms (stack.count .paren) terms = some 0) :
    ∃ cells, toPostfix stack terms = some cells := by
  -- The parentheses on the stack are the depth at which the rest of the terms is read.
  induction terms generalizing stack with
  | nil => exact exists_drain (Option.some.inj h)
  | cons t terms ih =>
    cases t with
    | value v =>
      obtain ⟨cells, hcells⟩ := ih h
      exact ⟨.value v :: cells, by rw [toPostfix, hcells]; rfl⟩
    | op a =>
      have hparens : (Pending.op a :: (release a.rank stack).2).count .paren = stack.count .paren := by
        rw [List.count_cons_of_ne (by simp), release_parens]
      rw [← hparens] at h
      obtain ⟨cells, hcells⟩ := ih h
      refine ⟨(release a.rank stack).1 ++ cells, ?_⟩
      simp only [toPostfix, hcells, Option.map_some]
    | opening =>
      have hparens : (Pending.paren :: stack).count .paren = stack.count .paren + 1 := List.count_cons_self
      rw [nestTerms, ← hparens] at h
      exact ih h
    | closing =>
      have hopen : stack.count .paren ≠ 0 := by
        intro h0
        rw [h0] at h
        cases h
      obtain ⟨⟨out, left⟩, hparts⟩ := exists_closeParen hopen
      rw [closeParen_parens hparts] at h
      obtain ⟨cells, hcells⟩ := ih h
      refine ⟨out ++ cells, ?_⟩
      simp only [toPostfix, hparts, Option.bind_some, hcells, Option.map_some]

end

/-! ## What comes out -/

def Cell.term : Cell → Term
  | .value v => .value v
  | .op a => .op a

structure Reordered (terms out : List Term) : Prop where
  plain : .opening ∉ out ∧ .closing ∉ out
  values : out.filterMap Term.value? = terms.filterMap Term.value?
  ops (a : Arith) : out.count (.op a) = terms.count (.op a)

theorem count_op (terms : List Term) (a : Arith) : terms.count (.op a) = (terms.filterMap Term.op?).count a := by
  induction terms with
  | nil => rfl
  | cons t terms ih =>
    cases t with
    | op b => simp [List.count_cons, ih]
    | value v => simpa [List.filterMap_cons] using ih
    | opening => simpa [List.filterMap_cons] using ih
    | closing => simpa [List.filterMap_cons] using ih

theorem reordered_of_toPostfix {terms : List Term} {cells : List Cell} (h : toPostfix [] terms = some cells) :
    Reordered terms (cells.map Cell.term) where
  plain := by
    refine ⟨fun hm => ?_, fun hm => ?_⟩
    all_goals
      obtain ⟨cell, _, hcell⟩ := List.mem_map.mp hm
      cases cell with
      | value v => cases hcell
      | op a => cases hcell
  values := by
    have hvalue : Term.value? ∘ Cell.term = Cell.value? := funext fun cell => by cases cell <;> rfl
    rw [List.filterMap_map, hvalue]
    exact values_toPostfix h
  ops a := by
    have hop : Term.op? ∘ Cell.term = Cell.op? := funext fun cell => by cases cell <;> rfl
    rw [count_op, count_op, List.filterMap_map, hop]
    exact (ops_toPostfix h).count_eq a

/-! ## Spelling a tree -/

/-- The terms of a tree at a level, with no parentheses but those that it needs there. -/
def Tree.render (k : Nat) : Tree → List Term
  | leaf v => [.value v]
  | node a l r =>
    let terms := l.render a.rank ++ .op a :: r.render (a.rank + 1)
    if k ≤ a.rank then terms else .opening :: (terms ++ [.closing])

theorem Infix.of_le {j k : Nat} {t : Tree} {terms : List Term} (h : Infix k t terms) (hle : j ≤ k) :
    Infix j t terms := by
  induction hle with
  | refl => exact h
  | step _ ih => exact ih h.lower

theorem Tree.infix_render (t : Tree) {k : Nat} (hk : k ≤ 3) : Infix k t (t.render k) := by
  induction t generalizing k with
  | leaf v => exact (Infix.leaf v).of_le hk
  | node a l r ihl ihr =>
    have hnode := Infix.node (ihl (Nat.le_of_lt a.rank_lt)) (ihr a.rank_lt)
    rw [render]
    split
    · rename_i hle
      exact hnode.of_le hle
    · exact (Infix.paren (hnode.of_le a.rank_pos)).of_le hk

/-- Reordering fails just on parentheses that are not balanced, and loses and invents nothing else than
these. On every spelling of a tree, be it the one with the fewest parentheses or one with more, it gives
the tree in post-order. -/
theorem toPostfix_exact :
    (∀ terms : List Term, ((toPostfix [] terms).isSome ↔ BalancedTerms terms) ∧
      ∀ cells, toPostfix [] terms = some cells → Reordered terms (cells.map Cell.term)) ∧
    ∀ t : Tree, Infix 1 t (t.render 1) ∧ ∀ terms, Infix 1 t terms → toPostfix [] terms = some t.post := by
  refine ⟨fun terms => ⟨?_, fun cells => reordered_of_toPostfix⟩,
    fun t => ⟨t.infix_render (by decide), fun terms => toPostfix_infix⟩⟩
  rw [← nestTerms_eq_zero_iff, Option.isSome_iff_exists]
  exact ⟨fun ⟨_, hcells⟩ => nestTerms_of_toPostfix hcells, fun h => exists_toPostfix h⟩

/-- In `((a) - (b - 1))`, the tree needs the parentheses around its right operand alone. -/
theorem toPostfix_exact_difference :
    let a := Value.var "a"
    let b := Value.var "b"
    let one := Value.ready (.literal 1)
    let t := Tree.node .sub (.leaf a) (.node .sub (.leaf b) (.leaf one))
    let terms : List Term := [.opening, .opening, .value a, .closing, .op .sub, .opening, .value b, .op .sub,
      .value one, .closing, .closing]
    Infix 1 t terms ∧ toPostfix [] terms = some t.post ∧ Reordered terms (t.post.map Cell.term) := by
  intro a b one t terms
  have hleft : Infix 1 (.leaf a) [.opening, .value a, .closing] :=
    (Infix.paren ((Infix.leaf a).of_le (by decide))).of_le (by decide)
  have hdifference : Infix 1 (.node .sub (.leaf b) (.leaf one)) [.value b, .op .sub, .value one] :=
    Infix.node (a := .sub) ((Infix.leaf b).of_le (by decide)) ((Infix.leaf one).of_le (by decide))
  have hright : Infix 2 (.node .sub (.leaf b) (.leaf one))
      [.opening, .value b, .op .sub, .value one, .closing] := (Infix.paren hdifference).of_le (by decide)
  have hterms : Infix 1 t terms := (Infix.paren (Infix.node (a := .sub) hleft hright)).of_le (by decide)
  obtain ⟨hreorders, htrees⟩ := toPostfix_exact
  have hpost := (htrees t).2 terms hterms
  exact ⟨hterms, hpost, (hreorders terms).2 t.post hpost⟩

end SlotCompiler
