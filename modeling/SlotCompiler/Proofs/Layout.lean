import SlotCompiler.Proofs.Nesting
import SlotCompiler.Proofs.Simulation

/-!
# The code of a layout

The lines of a layout are accepted, and what they are lowered to is the code of the program:
`Laid.lowers`. The code in front of it sets every variable to zero: `hoist_reaches`.
-/

namespace SlotCompiler

open Machine

/-! ## Parts of a statement -/

theorem Spelled.over {k : Nat} {e : Expr} {ts : List Token} {vars : List String} (h : Spelled k e ts)
    (hc : Covers vars ts) : e.Over vars := by
  induction h with
  | int => trivial
  | negative => trivial
  | var hx => exact ⟨hx, hc _ (List.mem_singleton_self _) hx⟩
  | paren _ ih => exact ih (hc.subset fun t ht => by simp [ht])
  | choose _ _ _ _ ihs ihz ihp ihn =>
    rw [intercalate_four] at hc
    exact ⟨ihs (hc.subset fun t ht => by simp [ht]), ihz (hc.subset fun t ht => by simp [ht]),
      ihp (hc.subset fun t ht => by simp [ht]), ihn (hc.subset fun t ht => by simp [ht])⟩
  | op _ _ ihl ihr =>
    exact ⟨ihl (hc.subset fun t ht => by simp [ht]), ihr (hc.subset fun t ht => by simp [ht])⟩
  | lower _ ih => exact ih hc

theorem Expr.computes {code : List Instr} {e : Expr} {w : Operand} {d d' : Draft} (hu : UniqueLabels code)
    (h : e.lower.run d = .ok w d') (ho : e.Over d.vars) (hc : d'.code <+: code) :
    Computes code d.vars d.code.length e w d'.code.length := by
  intro m env out hm
  obtain ⟨m', ha, hv⟩ | hf := Expr.lower_delivers hu h ho ⟨hm.pc, hm.vars⟩ hc
  · obtain ⟨v, he⟩ := hv.leaf_isSome
    have hvars : d'.vars = d.vars := (Expr.lower_extends h ho).vars
    rw [he] at hv
    refine .inl ⟨m', v, ha.reaches, ⟨ha.stands.pc, fun x hx => ?_, ?_⟩, hv.value?, he⟩
    · exact ha.stands.vars x (hvars ▸ hx)
    · rw [ha.keeps.printed, hm.printed]
  · exact .inr hf

theorem exposed_of_lines {lines : List Line} (h : ∀ line ∈ lines, ∀ k, ExposedLine k true line.tokens)
    (k : Int) : Exposed k true lines := by
  induction lines generalizing k with
  | nil => trivial
  | cons line lines ih =>
    exact ⟨h line (by simp) k, ih (fun l hl => h l (by simp [hl])) _⟩

theorem exposedLine_header (c : Control) {cond : List Token} (h : ∀ t ∈ cond, t ∉ structural) (k : Int) :
    ExposedLine k true (c.keyword :: "(" :: (cond ++ [")", openBrace])) := by
  have hb : openBrace ≠ "if" ∧ openBrace ≠ "while" := by decide
  have hsplit : "(" :: (cond ++ [")", openBrace]) = ("(" :: (cond ++ [")"])) ++ [openBrace] := by simp
  refine ⟨fun _ => .inl rfl, ?_⟩
  rw [hsplit, exposedLine_append]
  exact ⟨exposedLine_plain (plain_header h), fun ht => absurd ht (by simp [hb]), trivial⟩

theorem exposedLine_closeBrace (k : Int) : ExposedLine k true [closeBrace] :=
  ⟨fun _ => .inl rfl, trivial⟩

/-! ## Statements -/

/-- The lines lead from one draft to the other, and their code is that of the program. -/
structure Lowers (lines : List Line) (P : Program) (d d' : Draft) : Prop where
  run : (lowerLines lines).run d = .ok () d'
  grows : d.Extends d'
  exposed : ∀ line ∈ lines, ∀ k, ExposedLine k true line.tokens
  realizes : ∀ {code}, UniqueLabels code → d'.code <+: code →
    Realizes code d.vars d.code.length P d'.code.length

structure LowersExpr (ts : List Token) (e : Expr) (w : Operand) (d d' : Draft) : Prop where
  run : (lowerExpr ts).run d = .ok w d'
  grows : d.Extends d'
  computes : ∀ {code}, UniqueLabels code → d'.code <+: code →
    Computes code d.vars d.code.length e w d'.code.length

theorem Spelled.lowers {k : Nat} {e : Expr} {ts : List Token} {d : Draft} (h : Spelled k e ts)
    (hz : e.NoZeroDivisor) (hc : Covers d.vars ts) : ∃ w d', LowersExpr ts e w d d' := by
  have ho := h.over hc
  obtain ⟨w, d', hr⟩ := Expr.lower_accepted ho hz
  refine ⟨w, d', ?_, Expr.lower_extends hr ho, fun hu hp => Expr.computes hu hr ho hp⟩
  rw [lowerExpr_spelled h, hr]

theorem Draft.extends_push (d : Draft) (cs : List Instr) : d.Extends (d.push cs) :=
  ⟨rfl, Nat.le_refl _, List.prefix_append ..⟩

section
variable {line : Line} {lines : List Line} {x : Token} {ts : List Token} {e : Expr} {P next : Program}
  {w : Operand} {d d₁ d' : Draft}

/-- A statement on one line: the code of an expression, then one instruction. -/
theorem Lowers.cons {i : Instr} (hg : d.Extends d₁)
    (hrun : (lowerLines (line :: lines)).run d = (lowerLines lines).run (d₁.push [i]))
    (hplain : ∀ t ∈ line.tokens, t ∉ structural) (h : Lowers lines next (d₁.push [i]) d')
    (hP : ∀ {code}, UniqueLabels code → d₁.code <+: code → code[d₁.code.length]? = some i →
      Realizes code d.vars (d₁.code.length + 1) next d'.code.length →
      Realizes code d.vars d.code.length P d'.code.length) : Lowers (line :: lines) P d d' where
  run := hrun.trans h.run
  grows := (hg.trans (d₁.extends_push [i])).trans h.grows
  exposed := List.forall_mem_cons.mpr ⟨fun _ => exposedLine_plain hplain, h.exposed⟩
  realizes {code} hu hp := by
    have hp₁ : d₁.code ++ [i] <+: code := h.grows.code.trans hp
    refine hP hu ((List.prefix_append ..).trans hp₁) (getElem?_of_isPrefix hp₁ (j := 0) rfl) ?_
    simpa [hg.vars] using h.realizes hu hp

theorem Lowers.assign (ht : line.tokens = x :: "=" :: ts) (hx : x.isName) (hm : x ∈ d.vars) (hne : ts ≠ [])
    (he : LowersExpr ts e w d d₁) (h : Lowers lines next (d₁.push [.store w (.var x)]) d') :
    Lowers (line :: lines) (.assign x e next) d d' := by
  have hassign : (lowerAssign x ts).run d = .ok () (d₁.push [.store w (.var x)]) := by
    rw [lowerAssign, run_bind_of_ok (declare_run hx hm), run_bind_of_ok he.run, emit_run]
  have hform := Form.ofTokens_assign hx (nested_of_lowerExpr he.run) hne
  refine .cons he.grows ?_ (ht ▸ plain_of_lowerAssign hassign) h fun hu hp hi hnext => ?_
  · simp only [lowerLines_cons, ht, hform]
    rw [run_bind_of_ok (run_atLine_of_ok hassign)]
  · exact .assign hm (he.computes hu hp) hi hnext

theorem Lowers.print (ht : line.tokens = "print" :: "(" :: (ts ++ [")"])) (he : LowersExpr ts e w d d₁)
    (h : Lowers lines next (d₁.push [.print w]) d') : Lowers (line :: lines) (.print e next) d d' := by
  have hprint : (lowerPrint ts).run d = .ok () (d₁.push [.print w]) := by
    rw [lowerPrint, run_bind_of_ok he.run, emit_run]
  have hform := Form.ofTokens_print (nested_of_lowerExpr he.run)
  refine .cons he.grows ?_ (ht ▸ plain_of_lowerPrint hprint) h fun hu hp hi hnext => ?_
  · simp only [lowerLines_cons, ht, hform]
    rw [run_bind_of_ok (run_atLine_of_ok hprint)]
  · exact .print (he.computes hu hp) hi hnext

end

section
variable {c : Control} {line last : Line} {block lines : List Line} {ts : List Token} {cond : Expr}
  {body next : Program} {w : Operand} {d d₁ d₂ d' : Draft}

theorem Control.extends_claim (c : Control) (d : Draft) : d.Extends (c.claim d) := by
  cases c <;> exact ⟨rfl, Nat.le_refl _, List.prefix_rfl⟩

theorem Control.enters {code : List Instr} (c : Control) (id : Nat) {ds : List Instr}
    (h : ds ++ c.enter id <+: code) : Enters code ds.length (ds ++ c.enter id).length := by
  cases c with
  | branch => exact .inl (by simp [enter])
  | loop =>
    have hjump := getElem?_of_isPrefix h (j := 0) rfl
    have hlabel := getElem?_of_isPrefix h (j := 1) rfl
    exact .inr ⟨_, hjump, hlabel, by simp [enter]⟩

/-- Where the end of the body jumps to: the front of the condition, or behind the whole statement. -/
theorem Control.lands {code : List Instr} (c : Control) (id : Nat) {ds es : List Instr}
    (h : ds ++ c.enter id <+: code) (h' : es ++ c.close id <+: code) :
    ∃ b, code[b]? = some (.label (c.back id)) ∧
      b + 1 = if c = .loop then (ds ++ c.enter id).length else es.length + 2 := by
  cases c with
  | branch => exact ⟨_, getElem?_of_isPrefix h' (j := 1) rfl, rfl⟩
  | loop => exact ⟨_, getElem?_of_isPrefix h (j := 1) rfl, by simp [enter]⟩

theorem Lowers.control (ht : line.tokens = c.keyword :: "(" :: (ts ++ [")", openBrace]))
    (hlast : last.tokens = [closeBrace])
    (he : LowersExpr ts cond w ((c.claim d).push (c.enter (c.nextId d))) d₁)
    (hb : Lowers block body (d₁.takeTemp.push (c.guard (c.nextId d) (d₁.temps + 1) w)) d₂)
    (h : Lowers lines next (d₂.push (c.close (c.nextId d))) d') :
    Lowers (line :: (block ++ last :: lines)) (.control c cond body next) d d' := by
  have hnest := nested_of_lowerExpr he.run
  have hform : Form.ofTokens line.tokens = .ok (.control c ("(" :: (ts ++ [")", openBrace]))) := by
    rw [ht]
    exact Form.ofTokens_enclose c hnest
  -- The block is cut at its own brace, whatever follows.
  have hcut : Block.cut ⟨line.number, [openBrace]⟩ (block ++ [last] ++ lines) =
      .ok (Block.extend ⟨⟨line.number, []⟩ :: block ++ [⟨last.number, []⟩], none, []⟩ lines) := by
    obtain ⟨n, tokens⟩ := last
    cases hlast
    exact Block.cut_append (cut_enclosed hb.run (exposed_of_lines hb.exposed 0) line.number n)
  have hbody : (lowerLines (⟨line.number, []⟩ :: block ++ [⟨last.number, []⟩])).run
      (d₁.takeTemp.push (c.guard (c.nextId d) (d₁.temps + 1) w)) = .ok () d₂ := by
    rw [List.cons_append, lowerLines_blank, run_lowerLines_append _ hb.run, lowerLines_blank, lowerLines_nil]
    rfl
  have hrun := run_lowerLines_control hform (group?_of_nested hnest _) he.run hcut hbody
  rw [Block.remaining_extend, List.append_assoc] at hrun
  have hclaim := (c.extends_claim d).trans (Draft.extends_push _ (c.enter (c.nextId d)))
  have hguard : d₁.Extends (d₁.takeTemp.push (c.guard (c.nextId d) (d₁.temps + 1) w)) :=
    d₁.extends_takeTemp.trans (Draft.extends_push ..)
  have hclose := d₂.extends_push (c.close (c.nextId d))
  have hgrows₁ := hclaim.trans he.grows
  have hgrows₂ := hgrows₁.trans (hguard.trans hb.grows)
  refine ⟨hrun.trans h.run, hgrows₂.trans (hclose.trans h.grows), ?_, fun {code} hu hp => ?_⟩
  · simp only [List.forall_mem_cons, List.forall_mem_append, hlast, ht]
    exact ⟨exposedLine_header c (plain_of_lowerExpr he.run), hb.exposed, exposedLine_closeBrace, h.exposed⟩
  · have hp₃ : d₂.code ++ c.close (c.nextId d) <+: code := h.grows.code.trans hp
    have hp₂ : d₂.code <+: code := (List.prefix_append ..).trans hp₃
    have hp₁ : d₁.code ++ c.guard (c.nextId d) (d₁.temps + 1) w <+: code := hb.grows.code.trans hp₂
    have hp₀ : d₁.code <+: code := (List.prefix_append ..).trans hp₁
    have henter : d.code ++ c.enter (c.nextId d) <+: code := by
      simpa using he.grows.code.trans hp₀
    obtain ⟨b, hback, hb'⟩ := c.lands (c.nextId d) henter hp₃
    have hcond := he.computes hu hp₀
    have hbodyR := hb.realizes hu hp₂
    have hnextR := h.realizes hu hp
    simp only [Draft.push_vars, Draft.push_code, Control.claim_vars, Control.claim_code] at hcond
    refine .control (c.enters (c.nextId d) henter) hcond (getElem?_of_isPrefix hp₁ (j := 0) rfl)
      (getElem?_of_isPrefix hp₁ (j := 1) rfl) (getElem?_of_isPrefix hp₁ (j := 2) rfl) ?_
      (getElem?_of_isPrefix hp₃ (j := 0) rfl) hback (getElem?_of_isPrefix hp₃ (j := 1) rfl) hb' ?_
    · simpa [hgrows₁.vars, Draft.takeTemp, Control.guard] using hbodyR
    · simpa [hgrows₂.vars, Control.close] using hnextR

end

theorem Spelled.ne_nil {k : Nat} {e : Expr} {ts : List Token} (h : Spelled k e ts) : ts ≠ [] :=
  h.reads.ne_nil

/-- The lines of a layout are accepted from every draft that has the variables. -/
theorem Laid.lowers {P : Program} {ls : List (List Token)} (h : Laid P ls) (hz : P.NoZeroDivisor)
    {lines : List Line} (ht : lines.map Line.tokens = ls) {d : Draft} (hv : Covers d.vars ls.flatten) :
    ∃ d', Lowers lines P d d' := by
  induction h generalizing lines d with
  | done =>
    cases List.map_eq_nil_iff.mp ht
    exact ⟨d, by rw [lowerLines_nil]; rfl, .refl d, nofun, fun _ _ => .done _⟩
  | @assign x e next ts ls hx he _ ih =>
    obtain ⟨line, lines, rfl, hline, ht⟩ := List.map_eq_cons_iff.mp ht
    rw [List.flatten_cons] at hv
    obtain ⟨w, d₁, hw⟩ := he.lowers hz.1 (hv.subset fun t ht => by simp [ht])
    obtain ⟨d', hd'⟩ := ih hz.2 ht (d := d₁.push [.store w (.var x)]) (by
      rw [Draft.push_vars, hw.grows.vars]
      exact hv.subset (List.subset_append_right ..))
    exact ⟨d', .assign hline hx (hv x (by simp) hx) he.ne_nil hw hd'⟩
  | @print e next ts ls he _ ih =>
    obtain ⟨line, lines, rfl, hline, ht⟩ := List.map_eq_cons_iff.mp ht
    rw [List.flatten_cons] at hv
    obtain ⟨w, d₁, hw⟩ := he.lowers hz.1 (hv.subset fun t ht => by simp [ht])
    obtain ⟨d', hd'⟩ := ih hz.2 ht (d := d₁.push [.print w]) (by
      rw [Draft.push_vars, hw.grows.vars]
      exact hv.subset (List.subset_append_right ..))
    exact ⟨d', .print hline hw hd'⟩
  | @control c cond body next ts bs ls he _ _ ihb ihn =>
    obtain ⟨line, rest, rfl, hline, ht⟩ := List.map_eq_cons_iff.mp ht
    obtain ⟨block, rest, rfl, hblock, ht⟩ := List.map_eq_append_iff.mp ht
    obtain ⟨last, lines, rfl, hlast, ht⟩ := List.map_eq_cons_iff.mp ht
    simp only [List.flatten_cons, List.flatten_append] at hv
    have hclaim := (c.extends_claim d).trans (Draft.extends_push _ (c.enter (c.nextId d)))
    obtain ⟨w, d₁, hw⟩ := he.lowers hz.1 (d := (c.claim d).push (c.enter (c.nextId d))) (by
      rw [hclaim.vars]
      exact hv.subset fun t ht => by simp [ht])
    have hgrows₁ := hclaim.trans hw.grows
    obtain ⟨d₂, hd₂⟩ := ihb hz.2.1 hblock
      (d := d₁.takeTemp.push (c.guard (c.nextId d) (d₁.temps + 1) w)) (by
        rw [Draft.push_vars, Draft.takeTemp, hgrows₁.vars]
        exact hv.subset fun t ht => by simp [ht])
    have hgrows₂ := hgrows₁.trans ((d₁.extends_takeTemp.trans (Draft.extends_push ..)).trans hd₂.grows)
    obtain ⟨d', hd'⟩ := ihn hz.2.2 ht (d := d₂.push (c.close (c.nextId d))) (by
      rw [Draft.push_vars, hgrows₂.vars]
      exact hv.subset fun t ht => by simp [ht])
    exact ⟨d', .control hline hlast hw hd₂ hd'⟩

/-! ## Whole programs -/

section
variable {code : List Instr} {d : Draft} {m : Machine} {out : List Int32}

theorem Draft.prefix_allocate (d : Draft) (x : String) : d.code <+: (d.allocate x).code := by
  unfold allocate
  split
  · exact List.prefix_rfl
  · exact List.prefix_append ..

theorem Draft.prefix_foldl_allocate (d : Draft) (xs : List String) :
    d.code <+: (xs.foldl allocate d).code := by
  induction xs generalizing d with
  | nil => exact List.prefix_rfl
  | cons x xs ih => exact (d.prefix_allocate x).trans (ih _)

theorem allocate_reaches (x : String) (hm : m.Shows d.vars d.code.length (fun _ => 0) out)
    (hc : (d.allocate x).code <+: code) : ∃ m', Reaches code m m' ∧
      m'.Shows (d.allocate x).vars (d.allocate x).code.length (fun _ => 0) out := by
  by_cases hx : x ∈ d.vars
  · rw [Draft.allocate_of_mem hx]
    exact ⟨m, .refl code m, hm⟩
  · rw [Draft.allocate_of_not_mem hx] at hc ⊢
    have halloca := reaches_alloca (m := m) (by rw [hm.pc]; exact getElem?_of_isPrefix hc (j := 0) rfl)
    have hstore := reaches_of_step (step_store (m := (m.setSlot (.var x) 0).next) (w := .literal 0)
      (by rw [next_pc, setSlot_pc, hm.pc]; exact getElem?_of_isPrefix hc (j := 1) rfl) rfl
      (setSlot_slots_self ..))
    refine ⟨_, halloca.trans hstore, by simp [hm.pc, Draft.grant], fun y hy => ?_, hm.printed⟩
    have hy : y = x ∨ y ∈ d.vars := by simpa [Draft.grant, or_comm] using hy
    simp only [next_slots, setSlot, Slot.var.injEq]
    split
    · rfl
    · exact hm.vars y (hy.resolve_left ‹_›)

theorem foldl_allocate_reaches (xs : List String) (hm : m.Shows d.vars d.code.length (fun _ => 0) out)
    (hc : (xs.foldl Draft.allocate d).code <+: code) : ∃ m', Reaches code m m' ∧
      m'.Shows (xs.foldl Draft.allocate d).vars (xs.foldl Draft.allocate d).code.length (fun _ => 0)
        out := by
  induction xs generalizing d m with
  | nil => exact ⟨m, .refl code m, hm⟩
  | cons x xs ih =>
    obtain ⟨m₁, hr₁, hs₁⟩ := allocate_reaches x hm ((Draft.prefix_foldl_allocate _ xs).trans hc)
    obtain ⟨m₂, hr₂, hs₂⟩ := ih hs₁ hc
    exact ⟨m₂, hr₁.trans hr₂, hs₂⟩

theorem hoist_reaches (lines : List Line) (hc : (Draft.hoist {} lines).code <+: code) :
    ∃ m, Reaches code {} m ∧
      m.Shows (Draft.hoist {} lines).vars (Draft.hoist {} lines).code.length (fun _ => 0) [] :=
  foldl_allocate_reaches (d := {}) _ ⟨rfl, nofun, rfl⟩ hc

end

theorem uniqueLabels_of_lowerProgram {lines : List Line} {code : List Instr}
    (h : lowerProgram lines = .ok code) : UniqueLabels code := by
  obtain ⟨_, _, _, _, _, hc, _, hd, rfl⟩ := emits_of_lowerProgram h
  intro l
  rw [(hc.fragment.append hd.fragment).defs]
  split <;> omega

theorem Laid.matches {P : Program} {ls : List (List Token)} (h : Laid P ls) (hz : P.NoZeroDivisor)
    {lines : List Line} (ht : lines.map Line.tokens = ls) : ∃ code vars, lowerProgram lines = .ok code ∧
      ∀ fuel, Matches code vars code.length {} fuel (P.run fuel (fun _ => 0) []) := by
  obtain ⟨cs, _, hvars⟩ := hoist_evaluates lines
  have hcovers : Covers (Draft.hoist {} lines).vars ls.flatten := fun t hm hn => by
    rw [← ht, ← List.flatMap_def] at hm
    exact hvars (covers_namesOf lines t hm hn)
  obtain ⟨d', hd'⟩ := h.lowers hz ht hcovers
  have hok : lowerProgram lines = .ok d'.code := by rw [lowerProgram, hd'.run]
  refine ⟨d'.code, (Draft.hoist {} lines).vars, hok, fun fuel => ?_⟩
  have hu := uniqueLabels_of_lowerProgram hok
  obtain ⟨m, hr, hs⟩ := hoist_reaches lines hd'.grows.code
  exact .of_reaches hr ((hd'.realizes hu List.prefix_rfl).simulates hu hs)

end SlotCompiler
