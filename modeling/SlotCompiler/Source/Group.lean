import SlotCompiler.Source.Token

/-!
# Parenthesised groups

`group?` cuts the group that opens a token list, `arguments` cuts what is inside a group at the
commas outside any inner parenthesis. Neither loses a token: `eq_of_group?` and
`intercalate_arguments`.
-/

namespace SlotCompiler

/-- Cuts at the `)` that closes the group, `depth` inner groups being open. -/
def closeGroup (depth : Nat) : List Token → Option (List Token × List Token)
  | [] => none
  | t :: ts =>
    if t = ")" then
      match depth with
      | 0 => some ([], ts)
      | d + 1 => (closeGroup d ts).map fun (inner, rest) => (t :: inner, rest)
    else
      (closeGroup (if t = "(" then depth + 1 else depth) ts).map fun (inner, rest) =>
        (t :: inner, rest)

/-- What is inside the group at the front, and what follows its `)`. -/
def group? : List Token → Option (List Token × List Token)
  | [] => none
  | t :: ts => if t = "(" then closeGroup 0 ts else none

/-- What is inside the group that opens at position `start`, and the position after its `)`. -/
def groupAt? (tokens : List Token) (start : Nat) : Option (List Token × Nat) :=
  (group? (tokens.drop start)).map fun (inner, _) => (inner, start + inner.length + 2)

theorem eq_of_closeGroup {depth : Nat} {ts inner rest : List Token}
    (h : closeGroup depth ts = some (inner, rest)) : ts = inner ++ ")" :: rest := by
  induction ts generalizing depth inner rest with
  | nil => cases h
  | cons t ts ih =>
    unfold closeGroup at h
    split at h
    · rename_i ht
      cases depth with
      | zero => cases h; simp [ht]
      | succ d =>
        obtain ⟨⟨i, r⟩, hc, he⟩ := Option.map_eq_some_iff.mp h
        cases he; simp [ih hc]
    · obtain ⟨⟨i, r⟩, hc, he⟩ := Option.map_eq_some_iff.mp h
      cases he; simp [ih hc]

theorem eq_of_group? {ts inner rest : List Token} (h : group? ts = some (inner, rest)) :
    ts = "(" :: (inner ++ ")" :: rest) := by
  cases ts with
  | nil => cases h
  | cons t ts =>
    by_cases ht : t = "("
    · rw [group?, if_pos ht] at h; rw [ht, eq_of_closeGroup h]
    · rw [group?, if_neg ht] at h; cases h

/-! ## Arguments -/

/-- The first argument and the others; a `)` without its `(` leaves the depth at zero. -/
def splitArguments (depth : Nat) : List Token → List Token × List (List Token)
  | [] => ([], [])
  | t :: ts =>
    if t = "," ∧ depth = 0 then
      let (arg, args) := splitArguments 0 ts
      ([], arg :: args)
    else
      let (arg, args) :=
        splitArguments (if t = "(" then depth + 1 else if t = ")" then depth - 1 else depth) ts
      (t :: arg, args)

/-- The arguments of a call, from the tokens inside its parentheses. -/
def arguments (ts : List Token) : List (List Token) :=
  let (arg, args) := splitArguments 0 ts
  arg :: args

theorem intercalate_splitArguments (depth : Nat) (ts : List Token) :
    [","].intercalate ((splitArguments depth ts).1 :: (splitArguments depth ts).2) = ts := by
  induction ts generalizing depth with
  | nil => simp [splitArguments]
  | cons t ts ih =>
    rw [splitArguments]
    split
    · rename_i h; simp [h.1, List.intercalate_cons_cons, ih 0]
    · generalize hd : (if t = "(" then depth + 1 else if t = ")" then depth - 1 else depth) = d
      cases hs : splitArguments d ts with
      | mk arg args =>
        have := ih d
        rw [hs] at this
        cases args with
        | nil => simpa using this
        | cons a as => simpa [List.intercalate_cons_cons] using this

theorem intercalate_arguments (ts : List Token) : [","].intercalate (arguments ts) = ts :=
  intercalate_splitArguments 0 ts

end SlotCompiler
