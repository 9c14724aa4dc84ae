import SlotCompiler.Lowering.Expr

/-!
# Trees of operations

A tree is what the infix terms of an expression stand for, once its choices have been replaced by
their values. Reordering the terms of a tree gives its cells in post-order, `toPostfix_infix`, and
running these lowers the tree, `lowerPostfix_infix`.
-/

namespace SlotCompiler

inductive Tree
  | leaf (v : Value)
  | node (a : Arith) (l r : Tree)
  deriving DecidableEq, Repr

namespace Tree

def post : Tree → List Cell
  | leaf v => [.value v]
  | node a l r => l.post ++ r.post ++ [.op a]

def lower : Tree → EStateM Cause Draft Value
  | leaf v => pure v
  | node a l r => do
    let lhs ← l.lower
    let rhs ← r.lower
    lowerArith a lhs rhs

end Tree

/-- The terms that spell a tree at a level, as `Spelled` for expressions. -/
inductive Infix : Nat → Tree → List Term → Prop
  | leaf (v : Value) : Infix 3 (.leaf v) [.value v]
  | paren {t : Tree} {ts : List Term} : Infix 1 t ts → Infix 3 t (.opening :: (ts ++ [.closing]))
  | node {a : Arith} {l r : Tree} {ls rs : List Term} :
    Infix a.rank l ls → Infix (a.rank + 1) r rs → Infix a.rank (.node a l r) (ls ++ .op a :: rs)
  | lower {k : Nat} {t : Tree} {ts : List Term} : Infix (k + 1) t ts → Infix k t ts

/-- The operator on top, if any, binds less tight than the level. -/
def Waits (k : Nat) : List Pending → Prop
  | .op a :: _ => a.rank < k
  | _ => True

section
variable {k : Nat} {stack : List Pending} {ops : List Arith}

theorem Waits.mono (h : Waits k stack) : Waits (k + 1) stack := by
  match stack with
  | [] => trivial
  | .paren :: _ => trivial
  | .op a :: _ => exact Nat.lt_succ_of_lt h

theorem release_append (ho : ∀ a ∈ ops, k ≤ a.rank) (hs : Waits k stack) :
    release k (ops.map .op ++ stack) = (ops.map .op, stack) := by
  induction ops with
  | nil =>
    match stack with
    | [] => rfl
    | .paren :: _ => rfl
    | .op a :: stack => rw [List.map_nil, List.nil_append, release, if_neg (Nat.not_le_of_lt hs)]; rfl
  | cons a ops ih =>
    obtain ⟨ha, ho⟩ := List.forall_mem_cons.mp ho
    rw [List.map_cons, List.cons_append, release, if_pos ha, ih ho]
    rfl

theorem closeParen_append (ops : List Arith) (stack : List Pending) :
    closeParen (ops.map .op ++ .paren :: stack) = some (ops.map .op, stack) := by
  induction ops with
  | nil => rfl
  | cons a ops ih => rw [List.map_cons, List.cons_append, closeParen, ih]; rfl

theorem drain_ops (ops : List Arith) : drain (ops.map .op) = some (ops.map .op) := by
  induction ops with
  | nil => rfl
  | cons a ops ih => rw [List.map_cons, drain, ih]; rfl

end

/-- The terms of a tree put out a front part of its cells, and leave the operators of the rest on
the stack; these bind at least as tight as the level. -/
theorem toPostfix_append {k : Nat} {t : Tree} {ts : List Term} (h : Infix k t ts) {stack : List Pending}
    (hs : Waits k stack) : ∃ (out : List Cell) (ops : List Arith), t.post = out ++ ops.map .op ∧
      (∀ a ∈ ops, k ≤ a.rank) ∧
      ∀ rest, toPostfix stack (ts ++ rest) = (toPostfix (ops.map .op ++ stack) rest).map (out ++ ·) := by
  induction h generalizing stack with
  | leaf v => exact ⟨[.value v], [], rfl, by simp, fun rest => rfl⟩
  | @paren t ts _ ih =>
    have hw : Waits 1 (.paren :: stack) := trivial
    obtain ⟨out, ops, hp, _, hrun⟩ := ih hw
    refine ⟨t.post, [], by simp, by simp, fun rest => ?_⟩
    rw [List.cons_append, List.append_assoc, toPostfix, hrun]
    simp only [List.singleton_append, toPostfix, closeParen_append, Option.bind_some, Option.map_map]
    rw [hp]
    exact congrArg (Option.map · _) (funext fun _ => by simp)
  | @node a l r ls rs _ _ ihl ihr =>
    obtain ⟨out₁, ops₁, hp₁, ho₁, hrun₁⟩ := ihl hs
    have hw : Waits (a.rank + 1) (.op a :: stack) := Nat.lt_succ_self _
    obtain ⟨out₂, ops₂, hp₂, ho₂, hrun₂⟩ := ihr hw
    refine ⟨out₁ ++ ops₁.map .op ++ out₂, ops₂ ++ [a], ?_, ?_, fun rest => ?_⟩
    · simp [Tree.post, hp₁, hp₂]
    · intro b hb
      rcases List.mem_append.mp hb with hb | hb
      · exact Nat.le_of_succ_le (ho₂ b hb)
      · exact Nat.le_of_eq (congrArg Arith.rank (List.mem_singleton.mp hb).symm)
    · rw [List.append_assoc, hrun₁, List.cons_append, toPostfix, release_append ho₁ hs]
      have hstack : (ops₂ ++ [a]).map Pending.op ++ stack = ops₂.map .op ++ .op a :: stack := by simp
      simp only [hrun₂, Option.map_map, hstack]
      exact congrArg (Option.map · _) (funext fun _ => by simp)
  | lower _ ih =>
    obtain ⟨out, ops, hp, ho, hrun⟩ := ih hs.mono
    exact ⟨out, ops, hp, fun a ha => Nat.le_of_succ_le (ho a ha), hrun⟩

theorem toPostfix_infix {k : Nat} {t : Tree} {ts : List Term} (h : Infix k t ts) :
    toPostfix [] ts = some t.post := by
  have hw : Waits k [] := trivial
  obtain ⟨out, ops, hp, _, hrun⟩ := toPostfix_append h hw
  have := hrun []
  rw [List.append_nil, List.append_nil, toPostfix, drain_ops] at this
  rw [this, hp]
  rfl

theorem runPostfix_post (t : Tree) (stack : List Value) (cells : List Cell) :
    runPostfix stack (t.post ++ cells) = t.lower >>= fun v => runPostfix (v :: stack) cells := by
  induction t generalizing stack cells with
  | leaf v => rfl
  | node a l r ihl ihr =>
    rw [Tree.post, List.append_assoc, List.append_assoc, ihl, Tree.lower, bind_assoc]
    refine bind_congr fun lhs => ?_
    rw [ihr, bind_assoc]
    rfl

theorem lowerPostfix_infix {k : Nat} {t : Tree} {ts : List Term} (h : Infix k t ts) :
    lowerPostfix ts = t.lower >>= Value.fetch := by
  have hrun := runPostfix_post t [] []
  rw [List.append_nil] at hrun
  simp only [lowerPostfix, toPostfix_infix h, hrun, bind_assoc]
  rfl

end SlotCompiler
