import SlotCompiler.Proofs.Delimiters

/-!
# Line breaks at braces

An accepted sequence of lines may be broken into more lines next to its braces, and may lose and get
blank lines: `lowerLines_of_relaid`. A block is cut out of the new lines where it was cut out of the old
ones, and its body and what is left behind it are again such a new layout of the old. Scanning the new
body cannot fail, since a header that starts its line goes on to start one.
-/

namespace SlotCompiler

/-- There is a brace on one side of the gap between the tokens. -/
def AtBrace (us vs : List Token) : Prop :=
  (us.getLast? = some openBrace ∨ us.getLast? = some closeBrace) ∨
    vs.head? = some openBrace ∨ vs.head? = some closeBrace

def Opens (lines : List Line) : Prop := lines.head?.bind Line.first? = some openBrace

/-- The second lines lay out the tokens of the first. No blank line may come between a header and the
brace that starts the next line. -/
inductive Relaid : List Line → List Line → Prop
  | nil : Relaid [] []
  | keep {ls ls' : List Line} {m n : Nat} {ts : List Token} :
    Relaid ls ls' → Relaid (⟨m, ts⟩ :: ls) (⟨n, ts⟩ :: ls')
  | drop {ls ls' : List Line} {m : Nat} : Relaid ls ls' → Relaid (⟨m, []⟩ :: ls) ls'
  | blank {ls ls' : List Line} {n : Nat} : ¬Opens ls → Relaid ls ls' → Relaid ls (⟨n, []⟩ :: ls')
  | break {ls ls' : List Line} {m n : Nat} {us vs : List Token} : us ≠ [] → vs ≠ [] → AtBrace us vs →
    Relaid (⟨m, vs⟩ :: ls) ls' → Relaid (⟨m, us ++ vs⟩ :: ls) (⟨n, us⟩ :: ls')

section
variable {us vs ws : List Token} {ls ls' : List Line} {m : Nat}

theorem AtBrace.of_append_left (h : AtBrace (ws ++ us) vs) (hne : us ≠ []) : AtBrace us vs := by
  unfold AtBrace at h ⊢
  rwa [List.getLast?_append_of_ne_nil _ hne] at h

theorem AtBrace.of_append_right (h : AtBrace us (vs ++ ws)) (hne : vs ≠ []) : AtBrace us vs := by
  unfold AtBrace at h ⊢
  rwa [List.head?_append_of_ne_nil _ hne] at h

theorem not_opens_nil : ¬Opens [] := nofun

theorem opens_cons {ts : List Token} : Opens (⟨m, ts⟩ :: ls) ↔ ts.head? = some openBrace := Iff.rfl

theorem Relaid.allTokens_eq (h : Relaid ls ls') : allTokens ls' = allTokens ls := by
  induction h with
  | nil => rfl
  | keep _ ih => rw [allTokens_cons, allTokens_cons, ih]
  | drop _ ih => rw [allTokens_cons, ih]; rfl
  | blank _ _ ih => rw [allTokens_cons, ih]; rfl
  | «break» _ _ _ _ ih => rw [allTokens_cons, allTokens_cons, ih, allTokens_cons, List.append_assoc]

/-! ## Inversion -/

theorem Relaid.of_nil (h : Relaid [] ls') : ∀ line ∈ ls', line.tokens = [] := by
  generalize hls : ([] : List Line) = ls at h
  induction h with
  | nil => nofun
  | keep => cases hls
  | drop => cases hls
  | blank _ _ ih => exact List.forall_mem_cons.mpr ⟨rfl, ih hls⟩
  | «break» => cases hls

theorem Relaid.of_blank (h : Relaid (⟨m, []⟩ :: ls) ls') : ∃ front back, ls' = front ++ back ∧
    (∀ line ∈ front, line.tokens = []) ∧ Relaid ls back := by
  generalize hls : (⟨m, []⟩ :: ls : List Line) = lines at h
  induction h with
  | nil => cases hls
  | @keep _ ls' _ n _ hk _ =>
    cases hls
    exact ⟨[⟨n, []⟩], ls', rfl, by simp, hk⟩
  | @drop _ ls' _ hd _ =>
    cases hls
    exact ⟨[], ls', rfl, nofun, hd⟩
  | @blank _ ls' n _ _ ih =>
    obtain ⟨front, back, rfl, hfront, hback⟩ := ih hls
    exact ⟨⟨n, []⟩ :: front, back, rfl, List.forall_mem_cons.mpr ⟨rfl, hfront⟩, hback⟩
  | @«break» _ _ _ _ us _ hus _ _ _ _ =>
    have hnil : [] = us ++ _ := congrArg Line.tokens (List.cons.inj hls).1
    exact absurd (List.append_eq_nil_iff.mp hnil.symm).1 hus

theorem Relaid.of_cons {ts : List Token} (h : Relaid (⟨m, ts⟩ :: ls) ls') (hne : ts ≠ []) :
    ∃ front n us vs back, ls' = front ++ ⟨n, us⟩ :: back ∧ (∀ line ∈ front, line.tokens = []) ∧
      (ts.head? = some openBrace → front = []) ∧ ts = us ++ vs ∧ us ≠ [] ∧ (vs ≠ [] → AtBrace us vs) ∧
      (vs = [] ∧ Relaid ls back ∨ vs ≠ [] ∧ Relaid (⟨m, vs⟩ :: ls) back) := by
  generalize hls : (⟨m, ts⟩ :: ls : List Line) = lines at h
  induction h with
  | nil => cases hls
  | @keep _ ls' _ n _ hk _ =>
    cases hls
    exact ⟨[], n, ts, [], ls', rfl, nofun, fun _ => rfl, by simp, hne, nofun, .inl ⟨rfl, hk⟩⟩
  | drop =>
    cases hls
    exact absurd rfl hne
  | @blank _ ls' n ho _ ih =>
    obtain ⟨front, n', us, vs, back, rfl, hfront, _, hline⟩ := ih hls
    refine ⟨⟨n, []⟩ :: front, n', us, vs, back, rfl, List.forall_mem_cons.mpr ⟨rfl, hfront⟩, ?_, hline⟩
    intro hhead
    rw [← hls, opens_cons] at ho
    exact absurd hhead ho
  | @«break» _ ls' _ n us vs hus hvs hb hr _ =>
    cases hls
    exact ⟨[], n, us, vs, ls', rfl, nofun, fun _ => rfl, rfl, hus, fun _ => hb, .inr ⟨hvs, hr⟩⟩

end

/-! ## Blocks -/

section
variable {ls ls' after : List Line} {b : Block} {m : Nat}

theorem Relaid.unblank (h : Relaid (⟨m, []⟩ :: ls) ls') (ho : ¬Opens ls) : Relaid ls ls' := by
  obtain ⟨front, back, rfl, hblank, hback⟩ := h.of_blank
  clear h
  induction front with
  | nil => exact hback
  | cons line front ih =>
    obtain ⟨hline, hfront⟩ := List.forall_mem_cons.mp hblank
    obtain ⟨n, ts⟩ := line
    obtain rfl : ts = [] := hline
    exact .blank ho (ih hfront)

-- Behind the brace that opens a block, a break is one in front of the body.
theorem Relaid.opened {ts : List Token} (h : Relaid (⟨m, openBrace :: ts⟩ :: ls) ls')
    (ho : ¬Opens (⟨m, ts⟩ :: ls)) :
    ∃ n ts' after, ls' = ⟨n, openBrace :: ts'⟩ :: after ∧ Relaid (⟨m, ts⟩ :: ls) (⟨n, ts'⟩ :: after) := by
  obtain ⟨front, n, us, vs, back, rfl, _, hfront, hts, hus, hb, hvs⟩ := h.of_cons (by simp)
  obtain rfl := hfront rfl
  obtain ⟨t, us, rfl⟩ := List.exists_cons_of_ne_nil hus
  obtain ⟨rfl, rfl⟩ : openBrace = t ∧ ts = us ++ vs := by simpa using hts
  refine ⟨n, us, back, rfl, ?_⟩
  rcases hvs with ⟨rfl, hback⟩ | ⟨hne, hback⟩
  · rw [List.append_nil]
    exact .keep hback
  · by_cases hnil : us = []
    · subst hnil
      exact .blank ho hback
    · have hb₁ : AtBrace ([openBrace] ++ us) vs := hb hne
      exact .break hnil hne (hb₁.of_append_left hnil) hback

theorem Splits.opens_iff (h : Splits ls b) : Opens b.body ↔ Opens ls := by
  cases h with
  | @here line body rest after ht =>
    show body.head? = some openBrace ↔ line.tokens.head? = some openBrace
    rw [ht]
    cases body with
    | nil =>
      have hne : closeBrace ≠ openBrace := by decide
      simp [hne]
    | cons t body => rfl
  | next => rfl

theorem relaid_remaining {n : Nat} {rest : List Token} (h : Relaid ls ls') (body : List Token) :
    Relaid (Block.closedAt m body rest ls).remaining (Block.closedAt n body rest ls').remaining := by
  unfold Block.closedAt Block.remaining
  by_cases hr : rest = []
  · simpa [hr] using h
  · simpa [hr] using h.keep

theorem splits_here {n : Nat} {ts body rest : List Token} (h : ts = body ++ closeBrace :: rest) :
    Splits (⟨n, ts⟩ :: after) (Block.closedAt n body rest after) :=
  Splits.here h

/-- Lines that hold a block go on to hold it, with its body and what is behind it laid out anew. -/
theorem Relaid.splits (h : Relaid ls ls') (hs : Splits ls b) :
    ∃ b', Splits ls' b' ∧ Relaid b.body b'.body ∧ Relaid b.remaining b'.remaining := by
  induction h generalizing b with
  | nil => cases hs
  | keep hk ih =>
    cases hs with
    | here ht => exact ⟨_, splits_here ht, .keep .nil, relaid_remaining hk _⟩
    | next hs =>
      obtain ⟨b', hs', hbody, hrest⟩ := ih hs
      exact ⟨_, hs'.next, .keep hbody, hrest⟩
  | drop hd ih =>
    cases hs with
    | here ht => exact absurd ht (by simp)
    | next hs =>
      obtain ⟨b', hs', hbody, hrest⟩ := ih hs
      exact ⟨b', hs', .drop hbody, hrest⟩
  | blank ho hb ih =>
    obtain ⟨b', hs', hbody, hrest⟩ := ih hs
    exact ⟨_, hs'.next, .blank (fun ho' => ho (hs.opens_iff.mp ho')) hbody, hrest⟩
  | @«break» ls ls' m n us vs hus hvs hb hr ih =>
    cases hs with
    | next hs =>
      obtain ⟨b', hs', hbody, hrest⟩ := ih hs.next
      exact ⟨_, hs'.next, .break hus hvs hb hbody, hrest⟩
    | @here _ body rest _ ht =>
      have behind : ∀ body₂, body = us ++ body₂ → vs = body₂ ++ closeBrace :: rest →
          ∃ b', Splits (⟨n, us⟩ :: ls') b' ∧ Relaid [⟨m, body⟩] b'.body ∧
            Relaid (Block.closedAt m body rest ls).remaining b'.remaining := by
        rintro body₂ rfl hvs₂
        obtain ⟨b', hs', hbody, hrest⟩ := ih (splits_here hvs₂)
        refine ⟨_, hs'.next, ?_, hrest⟩
        by_cases hnil : body₂ = []
        · subst hnil
          rw [List.append_nil]
          exact .keep (hbody.unblank not_opens_nil)
        · rw [hvs₂] at hb
          exact .break hus hnil (hb.of_append_right hnil) hbody
      rcases List.append_eq_append_iff.mp (show us ++ vs = body ++ closeBrace :: rest from ht) with
        ⟨body₂, hbody, hvs₂⟩ | ⟨rest₁, hus₁, hrest₁⟩
      · exact behind body₂ hbody hvs₂
      · cases rest₁ with
        | nil => exact behind [] (by simpa using hus₁.symm) hrest₁.symm
        | cons t rest₁ =>
          -- The block closes in front of the break, so that the break is in what is left.
          obtain ⟨rfl, rfl⟩ : closeBrace = t ∧ rest = rest₁ ++ vs := by simpa using hrest₁
          refine ⟨_, splits_here hus₁, .keep .nil, ?_⟩
          unfold Block.closedAt Block.remaining
          by_cases hnil : rest₁ = []
          · simpa [hnil, hvs] using hr
          · have hb₁ : AtBrace rest₁ vs := by
              rw [hus₁, List.append_cons] at hb
              exact hb.of_append_left hnil
            simpa [hnil, hvs] using Relaid.break hnil hvs hb₁ hr

end

/-! ## Scanning what is laid out anew -/

section
variable {k : Int} {first : Bool} {ts : List Token} {ls ls' : List Line} {line : Line} {s s' : Scan}
  {following : List Line} {b : Block} {d d' : Draft}

theorem ExposedLine.at_start (h : ExposedLine k first ts) : ExposedLine k true ts := by
  cases ts with
  | nil => trivial
  | cons t ts => exact ⟨fun _ => .inl rfl, h.2⟩

theorem Relaid.exposed (h : Relaid ls ls') (hx : Exposed k true ls) : Exposed k true ls' := by
  induction h generalizing k with
  | nil => trivial
  | keep _ ih => exact ⟨hx.1, ih hx.2⟩
  | drop _ ih =>
    apply ih
    simpa using hx.2
  | blank _ _ ih =>
    refine ⟨trivial, ih ?_⟩
    simpa using hx
  | @«break» ls ls' m n us vs hus _ _ _ ih =>
    -- What comes behind the break has come to the start of a line.
    have hsplit : Line.tokens ⟨m, us ++ vs⟩ = us ++ vs := rfl
    obtain ⟨hxu, hxv, hxl⟩ := (exposed_cons_append hsplit m).mp hx
    exact ⟨hxu, ih ⟨hxv.at_start, hxl⟩⟩

theorem Scan.line_append_closed (h : s.line ts = .inside s') (hd : s'.depth = 0) (rest : List Token) :
    s.line (ts ++ closeBrace :: rest) = .closed ts rest := by
  induction ts generalizing s with
  | nil =>
    cases h
    rw [List.nil_append, line, if_pos ⟨rfl, hd⟩]
  | cons t ts ih =>
    rw [line] at h
    split at h
    · cases h
    · rename_i hc
      split at h
      · cases h
      · rename_i ho
        rw [List.cons_append, line_cons hc ho, ih (Slice.cons_eq_inside.mp h)]
        rfl

theorem Block.scan_of_splits (h : Splits (line :: following) b) (hb : s.lines b.body = .inside s')
    (hd : s'.depth = 0) : scan s line following = .ok b := by
  generalize hls : line :: following = ls at h
  induction h generalizing s line following with
  | here ht =>
    cases hls
    obtain ⟨s₁, hl, hb⟩ := Scan.inside_of_lines_cons hb
    cases hb
    rw [scan.eq_def, ht, Scan.line_append_closed hl hd]
  | @next _ lines _ hs ih =>
    cases hls
    obtain ⟨s₁, hl, hb⟩ := Scan.inside_of_lines_cons hb
    cases lines with
    | nil => cases hs
    | cons next lines =>
      rw [scan]
      simp only [hl, ih hb rfl]
      rfl

/-- A block that is accepted on its own is scanned if, and only if, its headers are exposed. -/
theorem scan_eq_ok_iff (hl : (lowerLines b.body).run d = .ok () d') :
    Block.scan {} line following = .ok b ↔ Splits (line :: following) b ∧ Exposed 0 true b.body := by
  obtain ⟨hin, hstray⟩ := lines_of_lowerLines hl (k := 0) (by simp : true ↔ true ∨ 0 = 0)
  constructor
  · intro h
    have hs := splits_of_scan h
    refine ⟨hs, Classical.byContradiction fun hx => ?_⟩
    obtain ⟨e, he⟩ := Block.scan_of_stray (Scan.lines_splits_stray hs (hstray hx)) []
    rw [List.append_nil, h] at he
    cases he
  · rintro ⟨hs, hx⟩
    obtain ⟨f, hf⟩ := hin hx
    exact Block.scan_of_splits hs hf rfl

/-- The header owns the block, whatever its body: a brace opens it on the line or on the next. -/
def Owns (header : Line) (following : List Line) (b : Block) : Prop :=
  ∃ line ts after, line.tokens = openBrace :: ts ∧ Splits (⟨line.number, ts⟩ :: after) b ∧
    (header = line ∧ following = after ∨ header.tokens = [] ∧ following = line :: after)

theorem cut_iff_owns {header : Line} (hl : (lowerLines b.body).run d = .ok () d') :
    Block.cut header following = .ok b ↔ Owns header following b ∧ Exposed 0 true b.body := by
  rw [cut_eq_ok_iff]
  constructor
  · rintro ⟨line, ts, after, ht, hs, hline⟩
    obtain ⟨hs, hx⟩ := (scan_eq_ok_iff hl).mp hs
    exact ⟨⟨line, ts, after, ht, hs, hline⟩, hx⟩
  · rintro ⟨⟨line, ts, after, ht, hs, hline⟩, hx⟩
    exact ⟨line, ts, after, ht, (scan_eq_ok_iff hl).mpr ⟨hs, hx⟩, hline⟩

end

/-! ## Headers and their blocks -/

section
variable {ls ls' following back : List Line} {m n : Nat} {ts us vs rest : List Token} {b : Block}

theorem Structured.not_opens (h : Structured ls) : ¬Opens ls := by
  intro ho
  cases h with
  | nil => cases ho
  | @plain line _ _ hp _ => exact hp openBrace (List.mem_of_head? ho) (by decide)
  | @control line _ c cond rest _ ht _ _ _ _ _ =>
    have hk : c.keyword = openBrace := by
      have ho : line.tokens.head? = some openBrace := ho
      rw [ht] at ho
      exact Option.some.inj ho
    cases c <;> exact absurd hk (by decide)

theorem Relaid.owned (h : Relaid (⟨m, openBrace :: ts⟩ :: ls) ls') (hs : Splits (⟨m, ts⟩ :: ls) b)
    (ho : ¬Opens b.body) :
    ∃ n ts' after b', ls' = ⟨n, openBrace :: ts'⟩ :: after ∧ Splits (⟨n, ts'⟩ :: after) b' ∧
      Relaid b.body b'.body ∧ Relaid b.remaining b'.remaining := by
  obtain ⟨n, ts', after, rfl, hr⟩ := h.opened fun ho' => ho (hs.opens_iff.mpr ho')
  obtain ⟨b', hs', hbody, hrest⟩ := hr.splits hs
  exact ⟨n, ts', after, b', rfl, hs', hbody, hrest⟩

/-- A header goes on to own its block if its line is broken behind the condition. -/
theorem Owns.relaid (h : Owns ⟨m, us ++ vs⟩ following b) (ho : ¬Opens b.body)
    (hb : us ≠ [] → vs ≠ [] → AtBrace us vs)
    (hr : vs = [] ∧ Relaid following back ∨ vs ≠ [] ∧ Relaid (⟨m, vs⟩ :: following) back) (n : Nat) :
    ∃ b', Owns ⟨n, us⟩ back b' ∧ Relaid b.body b'.body ∧ Relaid b.remaining b'.remaining := by
  obtain ⟨line, ts, after, ht, hs, ⟨rfl, rfl⟩ | ⟨hh, rfl⟩⟩ := h
  · have ht : us ++ vs = openBrace :: ts := ht
    by_cases hus : us = []
    · -- The break is in front of the brace, which starts the next line now.
      subst hus
      rcases hr with ⟨rfl, _⟩ | ⟨_, hr⟩
      · cases ht
      obtain rfl : vs = openBrace :: ts := ht
      obtain ⟨n', ts', after, b', rfl, hs', hbody, hrest⟩ := hr.owned hs ho
      exact ⟨b', ⟨_, ts', after, rfl, hs', .inr ⟨rfl, rfl⟩⟩, hbody, hrest⟩
    · have hr : Relaid (⟨m, openBrace :: ts⟩ :: following) (⟨n, us⟩ :: back) := by
        rw [← ht]
        rcases hr with ⟨rfl, hr⟩ | ⟨hvs, hr⟩
        · rw [List.append_nil]
          exact .keep hr
        · exact .break hus hvs (hb hus hvs) hr
      obtain ⟨n', ts', after, b', hline, hs', hbody, hrest⟩ := hr.owned hs ho
      cases hline
      exact ⟨b', ⟨_, ts', back, rfl, hs', .inl ⟨rfl, rfl⟩⟩, hbody, hrest⟩
  · obtain ⟨rfl, rfl⟩ := List.append_eq_nil_iff.mp hh
    obtain ⟨l, tokens⟩ := line
    obtain rfl : tokens = openBrace :: ts := ht
    rcases hr with ⟨_, hr⟩ | ⟨hvs, _⟩
    · obtain ⟨n', ts', after, b', rfl, hs', hbody, hrest⟩ := hr.owned hs ho
      exact ⟨b', ⟨_, ts', after, rfl, hs', .inr ⟨rfl, rfl⟩⟩, hbody, hrest⟩
    · exact absurd rfl hvs

end

/-! ## Lowering what is laid out anew -/

section
variable {ls ls' : List Line} {line : Line} {us vs cond rest : List Token} {c : Control}

theorem AtBrace.mem (h : AtBrace us vs) : openBrace ∈ us ++ vs ∨ closeBrace ∈ us ++ vs := by
  rcases h with (h | h) | h | h
  · exact .inl (List.mem_append_left _ (List.mem_of_getLast? h))
  · exact .inr (List.mem_append_left _ (List.mem_of_getLast? h))
  · exact .inl (List.mem_append_right _ (List.mem_of_head? h))
  · exact .inr (List.mem_append_right _ (List.mem_of_head? h))

theorem Relaid.of_plain (h : Relaid (line :: ls) ls') (hp : ∀ t ∈ line.tokens, t ∉ structural)
    (hne : line.tokens ≠ []) : ∃ front n back, ls' = front ++ ⟨n, line.tokens⟩ :: back ∧
      (∀ line ∈ front, line.tokens = []) ∧ Relaid ls back := by
  obtain ⟨m, ts⟩ := line
  obtain ⟨front, n, us, vs, back, rfl, hfront, _, hts, _, hb, hvs⟩ := h.of_cons hne
  obtain rfl : ts = us ++ vs := hts
  rcases hvs with ⟨rfl, hback⟩ | ⟨hvs, _⟩
  · exact ⟨front, n, back, by rw [List.append_nil], hfront, hback⟩
  · rcases (hb hvs).mem with hm | hm
    · exact absurd (by decide) (hp _ hm)
    · exact absurd (by decide) (hp _ hm)

theorem break_behind_header (hp : ∀ t ∈ cond, t ∉ structural) (h : c.header cond ++ rest = us ++ vs)
    (hb : vs ≠ [] → AtBrace us vs) : ∃ rest₁, us = c.header cond ++ rest₁ ∧ rest = rest₁ ++ vs := by
  rcases List.append_eq_append_iff.mp h with ⟨rest₁, hus, hrest⟩ | ⟨ws, hus, rfl⟩
  · exact ⟨rest₁, hus, hrest⟩
  · by_cases hws : ws = []
    · subst hws
      exact ⟨[], by simp [hus], rfl⟩
    · -- Such a break is between two tokens of the header, and none of these is a brace.
      have hb : AtBrace us ws := (hb (by simp [hws])).of_append_right hws
      rcases hb.mem with hm | hm
      · exact absurd (hus ▸ hm) (c.not_mem_header hp (by decide) (by cases c <;> decide))
      · exact absurd (hus ▸ hm) (c.not_mem_header hp (by decide) (by cases c <;> decide))

theorem run_lowerLines_owns {n : Nat} {following : List Line} {b : Block} {v : Operand} {d d₁ d₂ d' : Draft}
    (hv : (lowerExpr cond).run ((c.claim d).push (c.enter (c.nextId d))) = .ok v d₁)
    (ho : Owns ⟨n, rest⟩ following b) (hx : Exposed 0 true b.body)
    (hbody : (lowerLines b.body).run (d₁.takeTemp.push (c.guard (c.nextId d) (d₁.temps + 1) v)) = .ok () d₂)
    (hrest : (lowerLines b.remaining).run (d₂.push (c.close (c.nextId d))) = .ok () d') :
    (lowerLines (⟨n, c.header cond ++ rest⟩ :: following)).run d = .ok () d' := by
  have hcut := (cut_iff_owns hbody).mpr ⟨ho, hx⟩
  have hcond := nested_of_lowerExpr hv
  -- The parentheses on the line of the header nest, since they do on the lines of the block.
  have hnested : Nested rest := nested_of_cut hcut (structured_of_lowerLines hbody).nested
    (structured_of_lowerLines hrest).nested ⟨n, rest⟩ List.mem_cons_self
  have hform : Form.ofTokens (c.header cond ++ rest) = .ok (.control c ("(" :: (cond ++ ")" :: rest))) := by
    simpa [Control.header] using Form.ofTokens_control c hcond hnested.count_eq
  rw [run_lowerLines_control hform (group?_of_nested hcond rest) hv hcut hbody]
  exact hrest

end

theorem lowerLines_of_relaid {ls ls' : List Line} (hr : Relaid ls ls') {d d' : Draft}
    (h : (lowerLines ls).run d = .ok () d') : (lowerLines ls').run d = .ok () d' := by
  induction ls using lowerLines.induct generalizing ls' d d' with
  | case1 =>
    rw [← List.append_nil ls', lowerLines_blank_append hr.of_nil]
    exact h
  | case2 line following c hf => simp only [lowerLines_cons, hf] at h; cases h
  | case3 line following hf ih =>
    obtain ⟨m, ts⟩ := line
    obtain rfl : ts = [] := Form.eq_of_blank hf
    rw [lowerLines_blank] at h
    obtain ⟨front, back, rfl, hfront, hback⟩ := hr.of_blank
    rw [lowerLines_blank_append hfront]
    exact ih hback h
  | case4 line following expr hf ih =>
    obtain ⟨hp, _⟩ := plain_of_lowerLines (by simp [hf]) h
    obtain ⟨front, n, back, rfl, hfront, hback⟩ := hr.of_plain hp (by simp [Form.eq_of_print hf])
    simp only [lowerLines_cons, hf] at h
    obtain ⟨_, d₁, hx, h⟩ := run_bind_ok h
    rw [lowerLines_blank_append hfront]
    simp only [lowerLines_cons, hf]
    rw [run_bind_of_ok (run_atLine_of_ok (run_atLine_ok hx))]
    exact ih hback h
  | case5 line following x expr hf ih =>
    obtain ⟨hp, _⟩ := plain_of_lowerLines (by simp [hf]) h
    obtain ⟨front, n, back, rfl, hfront, hback⟩ := hr.of_plain hp (by simp [Form.eq_of_assign hf])
    simp only [lowerLines_cons, hf] at h
    obtain ⟨_, d₁, hx, h⟩ := run_bind_ok h
    rw [lowerLines_blank_append hfront]
    simp only [lowerLines_cons, hf]
    rw [run_bind_of_ok (run_atLine_of_ok (run_atLine_ok hx))]
    exact ih hback h
  | case6 line following c tokens hf ihb ihr =>
    obtain ⟨cond, rest, block, v, d₁, d₂, hg, hv, hb, hbody, hrest⟩ := lowerLines_control_ok hf h
    obtain ⟨m, ts⟩ := line
    have hts : ts = c.header cond ++ rest := by
      simpa [Control.header, eq_of_group? hg] using Form.eq_of_control hf
    have hne : ts ≠ [] := by simp [hts, Control.header]
    obtain ⟨front, n, us, vs, back, rfl, hfront, _, hsplit, _, hat, hvs⟩ := hr.of_cons hne
    have hplain := plain_of_lowerExpr hv
    obtain ⟨rest₁, rfl, rfl⟩ := break_behind_header hplain (hts.symm.trans hsplit) hat
    have hat : rest₁ ≠ [] → vs ≠ [] → AtBrace rest₁ vs := fun hne hvs => (hat hvs).of_append_left hne
    obtain ⟨howns, hx⟩ := (cut_iff_owns hbody).mp hb
    have hopens := (structured_of_lowerLines hbody).not_opens
    obtain ⟨block', howns', hrb, hrr⟩ := howns.relaid hopens hat hvs n
    have hbody' := ihb cond _ hg block hb hrb hbody
    have hrest' := ihr cond _ hg block hb hrr hrest
    rw [lowerLines_blank_append hfront]
    exact run_lowerLines_owns hv howns' (hrb.exposed hx) hbody' hrest'

theorem lowerProgram_of_relaid {ls ls' : List Line} (hr : Relaid ls ls') {code : List Instr}
    (h : lowerProgram ls = .ok code) : lowerProgram ls' = .ok code := by
  have hhoist : Draft.hoist {} ls' = Draft.hoist {} ls :=
    congrArg (fun ts => (ts.filter Token.isName).foldl Draft.allocate {}) hr.allTokens_eq
  unfold lowerProgram at h ⊢
  rw [hhoist]
  split at h
  · rename_i d hd
    rw [lowerLines_of_relaid hr hd]
    exact h
  · cases h

end SlotCompiler
