import SlotCompiler.Proofs.Extraction

/-!
# The recursion descends

Statements and expressions are lowered by recursions that no list structure carries: a body is put
together from parts of lines, what is left of a line is carried on to the next round of the same loop,
and the signs of an expression are joined before its calls are cut out. Here one round of each recursion
is written with the recursive call as a parameter. A round asks for shorter lists alone, and a loop over
lines descends in the number of tokens and then in the number of lines, whatever the tokens are. So the
rounds determine the lowering: `recursion_descends`.
-/

namespace SlotCompiler

/-- Where each round of a recursion asks for smaller arguments alone, the recursion has at most one
solution. -/
theorem eq_of_dependsOn {α β : Type} {round : (α → β) → α → β} {size : α → Nat}
    (h : ∀ a, DependsOn (fun self => round self a) {b | size b < size a}) {f g : α → β}
    (hf : ∀ a, f a = round f a) (hg : ∀ a, g a = round g a) : f = g := by
  funext a
  induction hn : size a using Nat.strong_induction_on generalizing a with
  | _ n ih =>
    subst hn
    rw [hf, hg]
    exact h a fun b hb => ih (size b) hb b rfl

/-! ## One round of an expression -/

section
variable (self : List Token → EStateM Cause Draft Operand)

def chooseWith (ts : List Token) : EStateM Cause Draft Operand := do
  let dest ← freshTemp
  match arguments ts with
  | [selector, onZero, onPositive, onNegative] =>
    let s ← self selector
    let z ← self onZero
    let p ← self onPositive
    let n ← self onNegative
    lowerSelect (.temp dest) s z p n
  | _ => throw .arguments

def termsWith (ts : List Token) : EStateM Cause Draft (List Term) :=
  match ts with
  | [] => pure []
  | t :: ts =>
    if t = "choose" then
      match _h : group? ts with
      | none => throw .group
      | some (inner, rest) => do
        let v ← chooseWith self inner
        let terms ← termsWith rest
        return .value (.ready v) :: terms
    else
      match Term.ofToken t with
      | .error c => throw c
      | .ok term => do
        let terms ← termsWith ts
        return term :: terms
termination_by ts.length
decreasing_by
  all_goals simp only [List.length_cons]
  all_goals try have := length_of_group? _h
  all_goals omega

def exprWith (ts : List Token) : EStateM Cause Draft Operand :=
  match ts with
  | [] => throw .expression
  | [t] => lowerSingle t
  | t :: u :: more =>
    match joinSigns none (t :: u :: more) with
    | none => throw .expression
    | some joined =>
      if hasEmptyGroup joined then throw .expression
      else do
        let terms ← termsWith self joined
        lowerPostfix terms

end

def IsArgument (inner us : List Token) : Prop :=
  ∃ selector onZero onPositive onNegative, arguments inner = [selector, onZero, onPositive, onNegative] ∧
    us ∈ [selector, onZero, onPositive, onNegative]

def ArgumentIn (joined us : List Token) : Prop :=
  ∃ front back inner rest, joined = front ++ "choose" :: back ∧ group? back = some (inner, rest) ∧
    IsArgument inner us

/-- One of the four arguments of a call of `choose` in an expression, once its signs are joined. -/
def ArgumentOf (ts us : List Token) : Prop := ∃ joined, joinSigns none ts = some joined ∧ ArgumentIn joined us

section
variable {ts us : List Token}

theorem IsArgument.length_lt (h : IsArgument ts us) : us.length < ts.length := by
  obtain ⟨s, z, p, n, harguments, hu⟩ := h
  have hlen := length_of_arguments harguments
  simp only [List.mem_cons, List.not_mem_nil, or_false] at hu
  rcases hu with rfl | rfl | rfl | rfl <;> omega

theorem ArgumentOf.length_lt (h : ArgumentOf ts us) : us.length < ts.length := by
  obtain ⟨joined, hj, front, back, inner, rest, rfl, hg, hu⟩ := h
  -- Joining signs makes an expression no longer, and a call is longer than its arguments.
  have hjoined := length_joinSigns_le hj
  have hgroup := length_of_group? hg
  have hargument := hu.length_lt
  simp only [List.length_append, List.length_cons] at hjoined
  omega

theorem ArgumentIn.append (h : ArgumentIn ts us) (before : List Token) : ArgumentIn (before ++ ts) us := by
  obtain ⟨front, back, inner, rest, rfl, hg, hu⟩ := h
  exact ⟨before ++ front, back, inner, rest, by rw [List.append_assoc], hg, hu⟩

theorem dependsOn_chooseWith (ts : List Token) : DependsOn (fun self => chooseWith self ts) {us | IsArgument ts us} := by
  intro self self' h
  simp only [chooseWith]
  refine bind_congr fun dest => ?_
  split
  · rename_i s z p n harguments
    have hargument (us : List Token) (hu : us ∈ [s, z, p, n]) : self us = self' us :=
      h us ⟨s, z, p, n, harguments, hu⟩
    rw [hargument s (by simp), hargument z (by simp), hargument p (by simp), hargument n (by simp)]
  · rfl

theorem termsWith_cons (self : List Token → EStateM Cause Draft Operand) (t : Token) (ts : List Token) :
    termsWith self (t :: ts) = (
      if t = "choose" then
        match group? ts with
        | none => throw .group
        | some (inner, rest) => do
          let v ← chooseWith self inner
          let terms ← termsWith self rest
          return .value (.ready v) :: terms
      else
        match Term.ofToken t with
        | .error c => throw c
        | .ok term => do
          let terms ← termsWith self ts
          return term :: terms) := by
  rw [termsWith]
  split
  · split <;> rename_i h <;> simp only [h]
  · rfl

theorem dependsOn_termsWith (ts : List Token) : DependsOn (fun self => termsWith self ts) {us | ArgumentIn ts us} := by
  intro self self' h
  simp only
  fun_induction termsWith self ts with
  | case1 => rw [termsWith]
  | case2 ts hg =>
    rw [termsWith_cons, if_pos rfl, hg]
  | case3 ts inner rest hg ih =>
    have hcall : chooseWith self inner = chooseWith self' inner :=
      dependsOn_chooseWith inner fun us hu => h us ⟨[], ts, inner, rest, rfl, hg, hu⟩
    have hrest : termsWith self rest = termsWith self' rest := by
      refine ih fun us hu => h us ?_
      have hsplit : "choose" :: ts = ("choose" :: "(" :: (inner ++ [")"])) ++ rest := by simp [eq_of_group? hg]
      rw [hsplit]
      exact hu.append _
    simp only [termsWith_cons, if_true, hg, hcall, hrest]
  | case4 t ts ht c hc => simp only [termsWith_cons, if_neg ht, hc]
  | case5 t ts ht term hc ih =>
    have hrest : termsWith self ts = termsWith self' ts := ih fun us hu => h us (hu.append [t])
    simp only [termsWith_cons, if_neg ht, hc, hrest]

theorem dependsOn_exprWith (ts : List Token) : DependsOn (fun self => exprWith self ts) {us | ArgumentOf ts us} := by
  intro self self' h
  simp only [exprWith]
  split
  · rfl
  · rfl
  · split
    · rfl
    · rename_i joined hj
      have hterms : termsWith self joined = termsWith self' joined :=
        dependsOn_termsWith joined fun us hu => h us ⟨joined, hj, hu⟩
      rw [hterms]

end

theorem lowerTerms_eq_termsWith (ts : List Token) : lowerTerms ts = termsWith lowerExpr ts := by
  fun_induction termsWith lowerExpr ts with
  | case1 => rw [lowerTerms_nil]
  | case2 ts hg => rw [lowerTerms_cons, if_pos rfl, hg]
  | case3 ts inner rest hg ih =>
    have hcall : lowerChoose inner = chooseWith lowerExpr inner := lowerChoose_eq inner
    simp only [lowerTerms_cons, if_true, hg, ih, hcall]
  | case4 t ts ht c hc => simp only [lowerTerms_cons, if_neg ht, hc]
  | case5 t ts ht term hc ih => simp only [lowerTerms_cons, if_neg ht, hc, ih]

theorem lowerExpr_eq_exprWith (ts : List Token) : lowerExpr ts = exprWith lowerExpr ts := by
  match ts with
  | [] => rw [lowerExpr_nil, exprWith]
  | [t] => rw [lowerExpr_singleton, exprWith]
  | t :: u :: more =>
    simp only [lowerExpr_cons_cons, lowerTerms_eq_termsWith]
    rfl

/-! ## One round of a sequence of lines -/

def BlockOf (line : Line) (following : List Line) (b : Block) : Prop :=
  ∃ c tokens cond rest, Form.ofTokens line.tokens = .ok (.control c tokens) ∧
    group? tokens = some (cond, rest) ∧ Block.cut ⟨line.number, rest⟩ following = .ok b

section
variable {header line : Line} {following : List Line} {b : Block}

theorem rest_ne_nil_of_cut (h : Block.cut header following = .ok b) : ∀ line ∈ b.rest, line.tokens ≠ [] := by
  intro line hline
  obtain ⟨_, _, _, _, hs, _⟩ := span_of_cut h
  obtain ⟨_, _, _, _, _, _, _, hrest⟩ := hs.exists_last
  obtain ⟨hne, rfl⟩ := eq_of_rest hrest hline
  exact hne

theorem length_of_cut (h : Block.cut header following = .ok b) :
    (allTokens b.body).length + (allTokens b.rest.toList).length + 2 =
      (allTokens (header :: following.take (b.consumed following))).length := by
  obtain ⟨first, ts, used, ht, hs, hspan, _⟩ := span_of_cut h
  have htokens := congrArg List.length hs.allTokens_eq
  have hheader : allTokens (header :: following.take (b.consumed following)) = allTokens (first :: used) := by
    rw [← hspan, Block.span]
    by_cases hblank : header.tokens = []
    · simp [Line.isBlank, hblank]
    · simp [Line.isBlank, hblank]
  rw [hheader]
  simp only [allTokens, Block.remaining, List.flatMap_cons, List.flatMap_append, List.length_append,
    List.length_cons] at htokens ⊢
  rw [ht, List.length_cons]
  omega

theorem BlockOf.length_body_lt (h : BlockOf line following b) : (allTokens b.body).length <
    (allTokens (line :: following.take (b.consumed following))).length := by
  obtain ⟨c, tokens, cond, rest, hf, hg, hb⟩ := h
  have hline := Form.length_lt_of_control hf
  have hgroup := length_of_group? hg
  have hcut := length_of_cut hb
  simp only [allTokens_cons, List.length_append] at hcut ⊢
  omega

theorem BlockOf.length_remaining_lt (h : BlockOf line following b) : (allTokens b.remaining).length <
    (allTokens (line :: following)).length := by
  obtain ⟨c, tokens, cond, rest, hf, hg, hb⟩ := h
  have hline := Form.length_lt_of_control hf
  have hgroup := length_of_group? hg
  have hcut := congrArg List.length (allTokens_of_cut hb)
  simp only [allTokens_cons, List.length_append, List.length_cons] at hcut ⊢
  omega

end

/-- Where a loop over lines stands: what is left of the last line, if anything, and the lines from the
next one on. -/
structure Cursor where
  carried : Option Line
  ahead : List Line
  solid : ∀ line ∈ carried, line.tokens ≠ []

namespace Cursor

def start (lines : List Line) : Cursor := ⟨none, lines, nofun⟩

def pending (c : Cursor) : List Line := c.carried.toList ++ c.ahead

def next? (c : Cursor) : Option (Line × List Line) :=
  match c.carried, c.ahead with
  | some line, ahead => some (line, ahead)
  | none, line :: ahead => some (line, ahead)
  | none, [] => none

/-- The tokens that are left, and the lines from the next one on. -/
def measure (c : Cursor) : Nat × Nat := ((allTokens c.pending).length, c.ahead.length)

variable {c : Cursor} {line : Line} {following : List Line}

theorem next?_cases (h : c.next? = some (line, following)) :
    c.carried = some line ∧ c.ahead = following ∨ c.carried = none ∧ c.ahead = line :: following := by
  unfold next? at h
  split at h
  · rename_i hc
    cases h
    exact .inl ⟨hc, rfl⟩
  · rename_i hc ha
    cases h
    exact .inr ⟨hc, ha⟩
  · cases h

theorem pending_of_next? (h : c.next? = some (line, following)) : c.pending = line :: following := by
  rcases next?_cases h with ⟨hc, ha⟩ | ⟨hc, ha⟩ <;> simp [pending, hc, ha]

theorem pending_of_end (h : c.next? = none) : c.pending = [] := by
  unfold next? at h
  split at h
  · cases h
  · cases h
  · rename_i hc ha
    simp [pending, hc, ha]

end Cursor

section
variable (self : List Line → EStateM SyntaxError Draft Unit)

/-- One statement, with its body lowered by `self`, and where it leaves off. -/
def statementWith (line : Line) (following : List Line) : EStateM SyntaxError Draft Cursor :=
  match Form.ofTokens line.tokens with
  | .error c => throw ⟨line.number, c⟩
  | .ok .blank => pure (.start following)
  | .ok (.print expr) => do
    atLine line.number (lowerPrint expr)
    return .start following
  | .ok (.assign target expr) => do
    atLine line.number (lowerAssign target expr)
    return .start following
  | .ok (.control c tokens) => do
    let id ← c.fresh
    emit (c.enter id)
    match group? tokens with
    | none => throw ⟨line.number, .group⟩
    | some (cond, rest) =>
      atLine line.number (lowerTest cond (c.body id) (c.exit id))
      match hb : Block.cut ⟨line.number, rest⟩ following with
      | .error e => throw e
      | .ok block =>
        self block.body
        emit [.jump (c.back id), .label (c.exit id)]
        return ⟨block.rest, block.after, rest_ne_nil_of_cut hb⟩

end

section
variable {self : List Line → EStateM SyntaxError Draft Unit} {line : Line} {following : List Line}
  {c c' : Cursor} {d d' : Draft}

theorem statementWith_cases (h : (statementWith self line following).run d = .ok c d') :
    c = .start following ∨ ∃ b, BlockOf line following b ∧ c.carried = b.rest ∧ c.ahead = b.after := by
  unfold statementWith at h
  split at h
  · cases h
  · cases h
    exact .inl rfl
  · obtain ⟨_, _, _, h⟩ := run_bind_ok h
    cases h
    exact .inl rfl
  · obtain ⟨_, _, _, h⟩ := run_bind_ok h
    cases h
    exact .inl rfl
  · rename_i c tokens hf
    obtain ⟨_, _, _, h⟩ := run_bind_ok h
    obtain ⟨_, _, _, h⟩ := run_bind_ok h
    split at h
    · cases h
    · rename_i cond rest hg
      obtain ⟨_, _, _, h⟩ := run_bind_ok h
      split at h
      · cases h
      · rename_i b hb
        obtain ⟨_, _, _, h⟩ := run_bind_ok h
        obtain ⟨_, _, _, h⟩ := run_bind_ok h
        cases h
        exact .inr ⟨b, ⟨c, tokens, cond, rest, hf, hg, hb⟩, rfl, rfl⟩

theorem dependsOn_statementWith (line : Line) (following : List Line) :
    DependsOn (fun self => statementWith self line following) {ls | ∃ b, BlockOf line following b ∧ ls = b.body} := by
  intro self self' h
  simp only [statementWith]
  split
  · rfl
  · rfl
  · rfl
  · rfl
  · rename_i c tokens hf
    refine bind_congr fun id => bind_congr fun _ => ?_
    split
    · rfl
    · rename_i cond rest hg
      refine bind_congr fun _ => ?_
      split
      · rfl
      · rename_i b hb
        have hbody : self b.body = self' b.body := h b.body ⟨b, ⟨c, tokens, cond, rest, hf, hg, hb⟩, rfl⟩
        rw [hbody]

theorem measure_descends (hn : c.next? = some (line, following))
    (h : (statementWith self line following).run d = .ok c' d') :
    Prod.Lex (· < ·) (· < ·) c'.measure c.measure := by
  rw [Prod.lex_def]
  simp only [Cursor.measure, Cursor.pending_of_next? hn]
  obtain rfl | ⟨b, hb, hcarried, hahead⟩ := statementWith_cases h
  · by_cases hblank : line.tokens = []
    · -- What is carried has tokens, so this line is one of those ahead, and the cursor moves on.
      right
      have hc : c.ahead = line :: following := by
        obtain ⟨hc, _⟩ | ⟨_, ha⟩ := Cursor.next?_cases hn
        · exact absurd hblank (c.solid line hc)
        · exact ha
      simp [Cursor.start, Cursor.pending, hblank, hc]
    · left
      have hpos := List.length_pos_of_ne_nil hblank
      simp only [Cursor.start, Cursor.pending, Option.toList_none, List.nil_append, allTokens_cons,
        List.length_append]
      omega
  · left
    rw [Cursor.pending, hcarried, hahead]
    exact hb.length_remaining_lt

end

def loopWith (self : List Line → EStateM SyntaxError Draft Unit) (c : Cursor) (d : Draft) :
    EStateM.Result SyntaxError Draft Unit :=
  match _hn : c.next? with
  | none => .ok () d
  | some (line, following) =>
    match _hs : (statementWith self line following).run d with
    | .error e d' => .error e d'
    | .ok c' d' => loopWith self c' d'
termination_by c.measure
decreasing_by exact measure_descends _hn _hs

def linesWith (self : List Line → EStateM SyntaxError Draft Unit) (lines : List Line) :
    EStateM SyntaxError Draft Unit :=
  loopWith self (.start lines)

section
variable {self self' : List Line → EStateM SyntaxError Draft Unit} {line : Line} {following : List Line}
  {c : Cursor} {d : Draft}

theorem loopWith_end (h : c.next? = none) : loopWith self c d = .ok () d := by
  rw [loopWith]
  split
  · rfl
  · rename_i hn
    rw [h] at hn
    cases hn

theorem loopWith_next (h : c.next? = some (line, following)) :
    loopWith self c d = match (statementWith self line following).run d with
      | .error e d' => .error e d'
      | .ok c' d' => loopWith self c' d' := by
  rw [loopWith]
  split <;> rename_i hn <;> rw [h] at hn <;> cases hn
  split <;> rename_i hs <;> simp only [hs]

theorem statementWith_congr (hn : c.next? = some (line, following))
    (h : ∀ ls, (allTokens ls).length < (allTokens c.pending).length → self ls = self' ls) :
    statementWith self line following = statementWith self' line following := by
  refine dependsOn_statementWith line following ?_
  rintro _ ⟨b, hb, rfl⟩
  have hlines : (allTokens (line :: following.take (b.consumed following))).length ≤ (allTokens c.pending).length := by
    rw [Cursor.pending_of_next? hn]
    exact (((List.take_sublist _ following).cons_cons line).flatMap _).length_le
  exact h b.body (Nat.lt_of_lt_of_le hb.length_body_lt hlines)

theorem dependsOn_loopWith (c : Cursor) (d : Draft) :
    DependsOn (fun self => loopWith self c d) {ls | (allTokens ls).length < (allTokens c.pending).length} := by
  intro self self' h
  simp only
  fun_induction loopWith self c d with
  | case1 c d hn => rw [loopWith_end hn]
  | case2 c d line following hn e d' hs =>
    rw [statementWith_congr hn h] at hs
    rw [loopWith_next hn, hs]
  | case3 c d line following hn c' d' hs ih =>
    have hle : (allTokens c'.pending).length ≤ (allTokens c.pending).length := by
      rcases Prod.lex_def.mp (measure_descends hn hs) with hlt | ⟨heq, _⟩
      · exact Nat.le_of_lt hlt
      · exact Nat.le_of_eq heq
    rw [statementWith_congr hn h] at hs
    rw [loopWith_next hn, hs]
    exact ih fun ls hls => h ls (Nat.lt_of_lt_of_le hls hle)

theorem dependsOn_linesWith (lines : List Line) :
    DependsOn (fun self => linesWith self lines) {ls | (allTokens ls).length < (allTokens lines).length} :=
  fun _ _ h => funext fun d => dependsOn_loopWith (.start lines) d h

end

theorem lowerLines_cons_eq_statementWith (line : Line) (following : List Line) :
    lowerLines (line :: following) = statementWith lowerLines line following >>= fun c => lowerLines c.pending := by
  cases hf : Form.ofTokens line.tokens with
  | error c =>
    simp only [lowerLines_cons, statementWith, hf]
    rfl
  | ok form =>
    cases form with
    | blank =>
      simp only [lowerLines_cons, statementWith, hf, pure_bind]
      rfl
    | print expr =>
      simp only [lowerLines_cons, statementWith, hf, bind_assoc, pure_bind]
      rfl
    | assign target expr =>
      simp only [lowerLines_cons, statementWith, hf, bind_assoc, pure_bind]
      rfl
    | control c tokens =>
      simp only [lowerLines_cons, statementWith, hf, bind_assoc]
      refine bind_congr fun id => bind_congr fun _ => ?_
      cases group? tokens with
      | none => rfl
      | some parts =>
        simp only [bind_assoc]
        refine bind_congr fun _ => ?_
        split
        · rename_i e hb
          split <;> rename_i hb' <;> rw [hb] at hb' <;> cases hb'
          rfl
        · rename_i b hb
          split <;> rename_i hb' <;> rw [hb] at hb' <;> cases hb'
          simp only [bind_assoc, pure_bind]
          rfl

theorem lowerLines_eq_loopWith (c : Cursor) (d : Draft) :
    (lowerLines c.pending).run d = loopWith lowerLines c d := by
  fun_induction loopWith lowerLines c d with
  | case1 c d hn =>
    rw [Cursor.pending_of_end hn, lowerLines_nil]
    rfl
  | case2 c d line following hn e d' hs =>
    rw [Cursor.pending_of_next? hn, lowerLines_cons_eq_statementWith, run_bind_of_error hs]
  | case3 c d line following hn c' d' hs ih =>
    rw [Cursor.pending_of_next? hn, lowerLines_cons_eq_statementWith, run_bind_of_ok hs, ih]

theorem lowerLines_eq_linesWith (lines : List Line) : lowerLines lines = linesWith lowerLines lines :=
  funext fun d => lowerLines_eq_loopWith (.start lines) d

/-! ## All rounds -/

/-- On any lines, from any draft and whatever the bodies do: a statement asks for the body of its block
alone, which has fewer tokens than the lines it is cut from, a round of the loop that does not fail
descends, and an expression asks for the arguments of its calls alone, which are shorter than it. So each
of the two recursions has just one solution. -/
theorem recursion_descends :
    (∀ line following,
      DependsOn (fun self => statementWith self line following) {ls | ∃ b, BlockOf line following b ∧ ls = b.body} ∧
      ∀ b, BlockOf line following b → (allTokens b.body).length <
        (allTokens (line :: following.take (b.consumed following))).length) ∧
    (∀ self (c c' : Cursor) line following d d', c.next? = some (line, following) →
      (statementWith self line following).run d = .ok c' d' →
      Prod.Lex (· < ·) (· < ·) c'.measure c.measure) ∧
    (∀ ts, DependsOn (fun self => exprWith self ts) {us | ArgumentOf ts us} ∧
      ∀ us, ArgumentOf ts us → us.length < ts.length) ∧
    (∀ f, (∀ lines, f lines = linesWith f lines) ↔ f = lowerLines) ∧
    ∀ f, (∀ ts, f ts = exprWith f ts) ↔ f = lowerExpr := by
  refine ⟨fun line following => ⟨dependsOn_statementWith line following, fun _ => BlockOf.length_body_lt⟩,
    fun _ _ _ _ _ _ _ => measure_descends,
    fun ts => ⟨dependsOn_exprWith ts, fun _ => ArgumentOf.length_lt⟩, fun f => ⟨fun h => ?_, ?_⟩,
    fun f => ⟨fun h => ?_, ?_⟩⟩
  · exact eq_of_dependsOn dependsOn_linesWith h lowerLines_eq_linesWith
  · rintro rfl
    exact lowerLines_eq_linesWith
  · have hshorter (ts : List Token) : DependsOn (fun self => exprWith self ts) {us | us.length < ts.length} :=
      (dependsOn_exprWith ts).mono fun _ => ArgumentOf.length_lt
    exact eq_of_dependsOn hshorter h lowerExpr_eq_exprWith
  · rintro rfl
    exact lowerExpr_eq_exprWith

/-- A header with a block on its line, and a statement behind the block that is carried on. -/
theorem recursion_descends_remainder :
    let line : Line := ⟨1, lex "while (choose(x, 1, -2, 3)) \x7b x = 1 \x7d y = 2"⟩
    let b : Block := ⟨[⟨1, lex "x = 1"⟩], some ⟨1, lex "y = 2"⟩, []⟩
    BlockOf line [] b ∧ (allTokens b.body).length < (allTokens [line]).length ∧
      (∃ c' d', (statementWith lowerLines line []).run {} = .ok c' d' ∧ c'.carried = b.rest ∧
        Prod.Lex (· < ·) (· < ·) c'.measure (Cursor.start [line]).measure) ∧
      ArgumentOf (lex "choose(x, 1, -2, 3)") ["-2"] ∧ ["-2"].length < (lex "choose(x, 1, -2, 3)").length := by
  intro line b
  obtain ⟨hstatements, hrounds, hexprs, _⟩ := recursion_descends
  have hb : BlockOf line [] b :=
    ⟨.loop, lex "(choose(x, 1, -2, 3)) \x7b x = 1 \x7d y = 2", lex "choose(x, 1, -2, 3)",
      lex "\x7b x = 1 \x7d y = 2", by decide +kernel, by decide +kernel, by decide +kernel⟩
  have hargument : ArgumentOf (lex "choose(x, 1, -2, 3)") ["-2"] :=
    ⟨["choose", "(", "x", ",", "1", ",", "-2", ",", "3", ")"], by decide +kernel, [], _,
      ["x", ",", "1", ",", "-2", ",", "3"], [], rfl, by decide +kernel, ["x"], ["1"], ["-2"], ["3"],
      by decide +kernel, by simp⟩
  refine ⟨hb, (hstatements line []).2 b hb, ?_, hargument, (hexprs _).2 _ hargument⟩
  have hcarried : (match (statementWith lowerLines line []).run {} with
      | .ok c' _ => decide (c'.carried = b.rest)
      | .error _ _ => false) = true := by decide +kernel
  split at hcarried
  · rename_i c' d' hrun
    exact ⟨c', d', hrun, of_decide_eq_true hcarried, hrounds lowerLines (.start [line]) c' line [] {} d' rfl hrun⟩
  · cases hcarried

end SlotCompiler
