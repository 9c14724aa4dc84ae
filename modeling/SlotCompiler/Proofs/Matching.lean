import SlotCompiler.Proofs.Delimiters

/-!
# Groups and arguments are exact

Two scans follow the depth of parentheses: one cuts a group out of the tokens, the other cuts what is
inside at its commas. Said without a scan, a group is a slice between two parentheses with balanced
tokens in between, and an argument is balanced and has its commas inside of parentheses. Both scans find
just these: `groupAt?_eq_some_iff`, and, together with the arguments, `groups_and_arguments_exact`.
-/

namespace SlotCompiler

/-! ## Depth and balance -/

/-- A scan of the depth, one up at `o` and one down at `c`, that ends early below zero. -/
structure DepthScan {α : Type} (o c : α) (run : Nat → List α → Option Nat) : Prop where
  nil (k : Nat) : run k [] = some k
  up (k : Nat) (ts : List α) : run k (o :: ts) = run (k + 1) ts
  down (k : Nat) (ts : List α) : run (k + 1) (c :: ts) = run k ts
  below (ts : List α) : run 0 (c :: ts) = none
  level {t : α} (ho : t ≠ o) (hc : t ≠ c) (k : Nat) (ts : List α) : run k (t :: ts) = run k ts

theorem DepthScan.eq_zero_iff {α : Type} [DecidableEq α] {o c : α} {run : Nat → List α → Option Nat}
    (h : DepthScan o c run) (hne : o ≠ c) (k : Nat) (ts : List α) : run k ts = some 0 ↔
      (∀ us, us <+: ts → us.count c ≤ k + us.count o) ∧ k + ts.count o = ts.count c := by
  induction ts generalizing k with
  | nil => simp [h.nil]
  | cons t ts ih =>
    -- The empty front closes nothing, and every other one begins with `t`.
    have hfronts : (∀ us, us <+: t :: ts → us.count c ≤ k + us.count o) ↔
        ∀ us, us <+: ts → (t :: us).count c ≤ k + (t :: us).count o := by
      constructor
      · exact fun hf us hus => hf (t :: us) (List.prefix_cons_inj t |>.mpr hus)
      · intro hf us hus
        rcases List.prefix_cons_iff.mp hus with rfl | ⟨vs, rfl, hvs⟩
        · simp
        · exact hf vs hvs
    rw [hfronts]
    by_cases ho : t = o
    · subst ho
      have hcount (us : List α) : (t :: us).count c = us.count c := List.count_cons_of_ne hne
      simp only [h.up, ih, hcount, List.count_cons_self]
      simp only [Nat.add_right_comm k 1, Nat.add_assoc]
    by_cases hc : t = c
    · subst hc
      have hcount (us : List α) : (t :: us).count o = us.count o := List.count_cons_of_ne hne.symm
      simp only [hcount, List.count_cons_self]
      cases k with
      | zero =>
        rw [h.below]
        refine iff_of_false nofun fun hf => ?_
        simpa using hf.1 [] (List.nil_prefix)
      | succ k =>
        rw [h.down, ih]
        simp only [Nat.add_right_comm k 1, Nat.add_le_add_iff_right, Nat.add_right_cancel_iff]
    · simp only [h.level ho hc, ih, List.count_cons_of_ne ho, List.count_cons_of_ne hc]

theorem depthScan_nest : DepthScan "(" ")" nest where
  nil _ := rfl
  up _ _ := rfl
  down _ _ := rfl
  below _ := rfl
  level ho hc _ _ := nest_cons ho hc

theorem nested_iff_balanced {ts : List Token} : Nested ts ↔ Balanced "(" ")" ts := by
  refine ⟨Nested.balanced, fun h => (depthScan_nest.eq_zero_iff (by decide) 0 ts).mpr ⟨fun us hus => ?_, ?_⟩⟩
  · simpa using h.covered us hus
  · simpa using h.closed

/-! ## Groups -/

/-- The `)` at position `stop` closes a `(` at position `start`: what stands in between is balanced. -/
structure Closes (tokens : List Token) (start stop : Nat) : Prop where
  behind : start < stop
  closing : tokens[stop]? = some ")"
  balanced : Balanced "(" ")" ((tokens.take stop).drop (start + 1))

structure IsGroup (tokens : List Token) (start next : Nat) (inner : List Token) : Prop where
  within : next ≤ tokens.length
  slice : (tokens.take next).drop start = "(" :: (inner ++ [")"])
  balanced : Balanced "(" ")" inner

section
variable {tokens inner : List Token} {start next stop : Nat}

theorem IsGroup.next_eq (h : IsGroup tokens start next inner) : next = start + inner.length + 2 := by
  have hlen := congrArg List.length h.slice
  have hwithin := h.within
  simp only [List.length_drop, List.length_take, List.length_cons, List.length_append, List.length_nil] at hlen
  omega

theorem IsGroup.drop_eq (h : IsGroup tokens start next inner) :
    tokens.drop start = "(" :: (inner ++ ")" :: tokens.drop next) := by
  have hle : start ≤ (tokens.take next).length := by
    have hnext := h.next_eq
    have hwithin := h.within
    rw [List.length_take]
    omega
  calc tokens.drop start = (tokens.take next ++ tokens.drop next).drop start := by
        rw [List.take_append_drop]
    _ = (tokens.take next).drop start ++ tokens.drop next := List.drop_append_of_le_length hle
    _ = "(" :: (inner ++ ")" :: tokens.drop next) := by simp [h.slice]

theorem groupAt?_eq_some_iff : groupAt? tokens start = some (inner, next) ↔ IsGroup tokens start next inner := by
  constructor
  · intro h
    obtain ⟨⟨i, rest⟩, hg, heq⟩ := Option.map_eq_some_iff.mp h
    cases heq
    have hdrop := eq_of_group? hg
    have hlen := congrArg List.length hdrop
    simp only [List.length_drop, List.length_cons, List.length_append] at hlen
    refine ⟨by omega, ?_, (nested_of_group? hg).balanced⟩
    have hcount : start + inner.length + 2 - start = ("(" :: (inner ++ [")"])).length := by
      simp only [List.length_cons, List.length_append, List.length_nil]
      omega
    have hsplit : "(" :: (inner ++ ")" :: rest) = "(" :: (inner ++ [")"]) ++ rest := by simp
    rw [List.drop_take, hdrop, hcount, hsplit, List.take_left]
  · intro h
    have hg := group?_of_nested (nested_iff_balanced.mpr h.balanced) (tokens.drop next)
    rw [groupAt?, h.drop_eq, hg, h.next_eq]
    rfl

theorem exists_isGroup_iff : (∃ inner next, IsGroup tokens start next inner) ↔
    tokens[start]? = some "(" ∧ ∃ stop, Closes tokens start stop := by
  constructor
  · rintro ⟨inner, next, h⟩
    have hdrop := h.drop_eq
    have hopening : tokens[start]? = some "(" := by
      rw [← List.head?_drop, hdrop]
      rfl
    have hclosing : tokens[start + (inner.length + 1)]? = some ")" := by
      rw [← List.getElem?_drop, hdrop]
      simp
    have hinner : (tokens.take (start + (inner.length + 1))).drop (start + 1) = inner := by
      have hlen : start + (inner.length + 1) - (start + 1) = inner.length := by omega
      rw [List.drop_take, ← List.drop_drop, hdrop, hlen]
      simp
    refine ⟨hopening, start + (inner.length + 1), by omega, hclosing, ?_⟩
    rw [hinner]
    exact h.balanced
  · rintro ⟨hopening, stop, h⟩
    have hbehind := h.behind
    obtain ⟨hlt, hclosing⟩ := List.getElem?_eq_some_iff.mp h.closing
    obtain ⟨hstart, hopen⟩ := List.getElem?_eq_some_iff.mp hopening
    refine ⟨_, stop + 1, hlt, ?_, h.balanced⟩
    have hlast : tokens.take (stop + 1) = tokens.take stop ++ [")"] := by
      rw [List.take_succ_eq_append_getElem hlt, hclosing]
    have hfirst : (tokens.take stop).drop start = "(" :: (tokens.take stop).drop (start + 1) := by
      rw [List.drop_eq_getElem_cons (by simp; omega), List.getElem_take, hopen]
    rw [hlast, List.drop_append_of_le_length (by simp; omega), hfirst]
    rfl

theorem IsGroup.next_le (h : IsGroup tokens start next inner) (hlt : start < stop)
    (hcount : ((tokens.take stop).drop start).count "(" = ((tokens.take stop).drop start).count ")") :
    next ≤ stop := by
  by_contra hshort
  have hnext := h.next_eq
  -- Such a slice is the `(` of the group with a front of what is inside.
  obtain ⟨k, hk⟩ : ∃ k, stop - start = k + 1 := ⟨stop - start - 1, by omega⟩
  have hslice : (tokens.take stop).drop start = "(" :: inner.take k := by
    rw [List.drop_take, h.drop_eq, hk, List.take_succ_cons, List.take_append_of_le_length (by omega)]
  have hcovered := h.balanced.covered (inner.take k) (List.take_prefix k inner)
  rw [hslice, List.count_cons_self, List.count_cons_of_ne (by decide)] at hcount
  omega

end

/-! ## Arguments -/

def CommasInside (ts : List Token) : Prop :=
  ∀ front back, ts = front ++ "," :: back → front.count ")" < front.count "("

theorem guarded_iff_count {depth : Nat} {ts : List Token} (hn : nest depth ts ≠ none) : Guarded depth ts ↔
    ∀ front back, ts = front ++ "," :: back → front.count ")" < depth + front.count "(" := by
  induction ts generalizing depth with
  | nil => simp [Guarded]
  | cons t ts ih =>
    -- The first comma of the list may be its head, and every other one is behind the head.
    have hcommas : (∀ front back, t :: ts = front ++ "," :: back → front.count ")" < depth + front.count "(") ↔
        (t = "," → depth ≠ 0) ∧ ∀ front back, ts = front ++ "," :: back →
          (t :: front).count ")" < depth + (t :: front).count "(" := by
      constructor
      · refine fun h => ⟨?_, fun front back hts => h (t :: front) back (by rw [hts]; rfl)⟩
        rintro rfl
        exact Nat.ne_of_gt (h [] ts rfl)
      · rintro ⟨hhead, hrest⟩ front back hts
        cases front with
        | nil =>
          cases hts
          exact Nat.pos_of_ne_zero (hhead rfl)
        | cons u front =>
          cases hts
          exact hrest front back rfl
    rw [hcommas, Guarded]
    refine and_congr_right fun _ => ?_
    by_cases ho : t = "("
    · subst ho
      have hcount (front : List Token) : ("(" :: front).count ")" = front.count ")" :=
        List.count_cons_of_ne (by decide)
      rw [if_pos rfl, ih hn]
      simp only [hcount, List.count_cons_self, Nat.add_right_comm depth 1, Nat.add_assoc]
    by_cases hc : t = ")"
    · subst hc
      have hcount (front : List Token) : (")" :: front).count "(" = front.count "(" :=
        List.count_cons_of_ne (by decide)
      cases depth with
      | zero => exact absurd rfl hn
      | succ depth =>
        rw [if_neg ho, if_pos rfl, Nat.add_sub_cancel, ih hn]
        simp only [hcount, List.count_cons_self, Nat.add_right_comm depth 1, Nat.add_lt_add_iff_right]
    · rw [nest_cons ho hc] at hn
      rw [if_neg ho, if_neg hc, ih hn]
      simp only [List.count_cons_of_ne ho, List.count_cons_of_ne hc]

theorem whole_iff {ts : List Token} : Whole ts ↔ Balanced "(" ")" ts ∧ CommasInside ts := by
  have hguarded (hn : Nested ts) : Guarded 0 ts ↔ CommasInside ts := by
    have h0 : nest 0 ts ≠ none := by
      rw [hn]
      nofun
    rw [guarded_iff_count h0, CommasInside]
    simp only [Nat.zero_add]
  constructor
  · exact fun h => ⟨h.nested.balanced, (hguarded h.nested).mp h.guarded⟩
  · rintro ⟨hb, hc⟩
    have hn := nested_iff_balanced.mpr hb
    exact ⟨hn, (hguarded hn).mpr hc⟩

/-! ## Both scans -/

/-- A group is found just if a `(` and its partner are there. It is then the only group that opens at its
position, and no other slice from there on that closes what it opens is shorter. Arguments are found
again when they have been joined by commas, and joining what is cut at commas gives all tokens back. -/
theorem groups_and_arguments_exact :
    (∀ (tokens : List Token) (start : Nat),
      ((groupAt? tokens start).isSome ↔ tokens[start]? = some "(" ∧ ∃ stop, Closes tokens start stop) ∧
      ∀ inner next, (groupAt? tokens start = some (inner, next) ↔ IsGroup tokens start next inner) ∧
        (groupAt? tokens start = some (inner, next) → ∀ stop, start < stop →
          ((tokens.take stop).drop start).count "(" = ((tokens.take stop).drop start).count ")" →
          next ≤ stop)) ∧
    (∀ args : List (List Token), args ≠ [] → (∀ arg ∈ args, Balanced "(" ")" arg ∧ CommasInside arg) →
      arguments ([","].intercalate args) = args) ∧
    ∀ tokens : List Token, [","].intercalate (arguments tokens) = tokens := by
  refine ⟨fun tokens start => ⟨?_, fun inner next => ⟨groupAt?_eq_some_iff, fun h stop => ?_⟩⟩,
    fun args hne h => ?_, intercalate_arguments⟩
  · rw [← exists_isGroup_iff, Option.isSome_iff_exists]
    simp only [Prod.exists, groupAt?_eq_some_iff]
  · exact (groupAt?_eq_some_iff.mp h).next_le
  · exact arguments_intercalate hne fun arg ha => whole_iff.mpr (h arg ha)

theorem groups_and_arguments_inner_call :
    let tokens := lex "choose(a, choose(1, 2, 3, 4), (b), c) * 2"
    let args := [["a"], "choose" :: "(" :: (lex "1, 2, 3, 4" ++ [")"]), ["(", "b", ")"], ["c"]]
    let inner := [","].intercalate args
    groupAt? tokens 1 = some (inner, 21) ∧ IsGroup tokens 1 21 inner ∧ arguments inner = args := by
  intro tokens args inner
  have hgroup : groupAt? tokens 1 = some (inner, 21) := by decide +kernel
  have hcall : Nested (lex "1, 2, 3, 4") := by
    rw [Nested]
    decide +kernel
  have hword (t : Token) (h : t ≠ "(" ∧ t ≠ ")" ∧ t ≠ ",") : Whole [t] := whole_singleton h.1 h.2.1 h.2.2
  have hargs : ∀ arg ∈ args, Whole arg :=
    List.forall_mem_cons.mpr ⟨hword "a" (by decide),
      List.forall_mem_cons.mpr ⟨(hword "choose" (by decide)).append hcall.whole,
        List.forall_mem_cons.mpr ⟨(hword "b" (by decide)).nested.whole,
          List.forall_mem_singleton.mpr (hword "c" (by decide))⟩⟩⟩
  obtain ⟨hgroups, hjoined, _⟩ := groups_and_arguments_exact
  exact ⟨hgroup, ((hgroups tokens 1).2 inner 21).1.mp hgroup,
    hjoined args (by simp [args]) fun arg ha => whole_iff.mp (hargs arg ha)⟩

end SlotCompiler
