import SlotCompiler.Proofs.Consistency
import SlotCompiler.Proofs.Lexing

/-!
# Names

Labels, temporaries and the slots of variables take their names from one supply. A label or temporary
is a stem with digits behind it, and a slot ends in `r`, so no two of them are named alike:
`Symbol.name_injective`. What the code of an accepted source defines, it defines once:
`symbols_nodup_of_lowerSource`.
-/

namespace SlotCompiler

/-- What has a name in a module. -/
inductive Symbol
  | label (l : Label)
  | temp (id : Nat)
  | var (x : String)
  deriving DecidableEq, Repr

def Symbol.name : Symbol → String
  | .label l => l.text
  | .temp id => "t" ++ id.repr
  | .var x => x ++ "r"

/-- A choice has four arms, and a variable is named by a name. -/
def Symbol.Proper : Symbol → Prop
  | .label (.chooseArm arm _) => arm ≤ 3
  | .label _ => True
  | .temp _ => True
  | .var x => Token.isName x

/-! ## Different symbols have different names -/

section
variable {s s' d d' : String}

theorem stem_digits_inj (hs : ∀ c ∈ s.toList, c.isDigit = false) (hs' : ∀ c ∈ s'.toList, c.isDigit = false)
    (hd : ∀ c ∈ d.toList, c.isDigit) (hd' : ∀ c ∈ d'.toList, c.isDigit) (h : s ++ d = s' ++ d') :
    s = s' ∧ d = d' := by
  have front : ∀ {s d : String}, (∀ c ∈ s.toList, c.isDigit = false) → (∀ c ∈ d.toList, c.isDigit) →
      (s ++ d).toList.takeWhile (!·.isDigit) = s.toList := by
    intro s d hs hd
    have hnil : d.toList.takeWhile (!·.isDigit) = [] := by
      cases hc : d.toList with
      | nil => rfl
      | cons c cs => simp [hd c (by simp [hc])]
    rw [String.toList_append, List.takeWhile_append_of_pos (by simpa using hs), hnil, List.append_nil]
  have heq := front hs hd
  rw [h, front hs' hd', String.toList_inj] at heq
  subst heq
  exact ⟨rfl, (String.append_right_inj s').mp h⟩

end

namespace Symbol
variable {a b : Symbol}

def isVar : Symbol → Bool
  | .var _ => true
  | _ => false

def stem : Symbol → String
  | .label (.ifBody _) => "ifbody"
  | .label (.ifEnd _) => "ifend"
  | .label (.whileTest _) => "whcond"
  | .label (.whileBody _) => "whbody"
  | .label (.whileEnd _) => "whend"
  | .label (.chooseArm _ _) => "choose"
  | .label (.chooseEnd _) => "chooseend"
  | .temp _ => "t"
  | .var x => x

def ending : Symbol → String
  | .label (.ifBody id) | .label (.ifEnd id) => id.repr
  | .label (.whileTest id) | .label (.whileBody id) | .label (.whileEnd id) => id.repr
  | .label (.chooseArm arm id) => arm.repr ++ id.repr
  | .label (.chooseEnd id) => id.repr
  | .temp id => id.repr
  | .var _ => "r"

theorem name_eq (a : Symbol) : a.name = a.stem ++ a.ending := by
  cases a with
  | label l =>
    cases l with
    | chooseArm arm id => exact String.append_assoc
    | _ => rfl
  | temp id => rfl
  | var x => rfl

theorem isDigit_of_mem_ending (ha : a.isVar = false) : ∀ c ∈ a.ending.toList, c.isDigit := by
  intro c hc
  cases a with
  | label l =>
    cases l with
    | chooseArm arm id =>
      rw [ending, String.toList_append] at hc
      exact (List.mem_append.mp hc).elim isDigit_of_mem_repr isDigit_of_mem_repr
    | _ => exact isDigit_of_mem_repr hc
  | temp id => exact isDigit_of_mem_repr hc
  | var x => cases ha

theorem not_isDigit_of_mem_stem (ha : a.isVar = false) : ∀ c ∈ a.stem.toList, c.isDigit = false := by
  cases a with
  | label l => cases l <;> simp [stem]
  | temp id => simp [stem]
  | var x => cases ha

/-- A name ends in a digit, except for that of a variable. -/
theorem last_name (a : Symbol) : a.name.toList.getLast?.any Char.isDigit = !a.isVar := by
  cases ha : a.isVar with
  | true =>
    cases a with
    | var x => simp [name]
    | _ => cases ha
  | false =>
    have hne : a.ending.toList ≠ [] := by
      rcases a with l | id | x
      · cases l <;> simp [ending]
      · simp [ending]
      · cases ha
    rw [name_eq, String.toList_append, List.getLast?_append_of_ne_nil _ hne,
      List.getLast?_eq_some_getLast hne]
    exact isDigit_of_mem_ending ha _ (List.getLast_mem hne)

-- An arm is a single digit, so that the arm and the id can be told apart.
theorem arm_id_inj {arm arm' id id' : Nat} (ha : arm ≤ 3) (ha' : arm' ≤ 3)
    (h : arm.repr ++ id.repr = arm'.repr ++ id'.repr) : arm = arm' ∧ id = id' := by
  have hlen : ∀ {n : Nat}, n ≤ 3 → n.repr.toList.length = 1 := by
    intro n hn
    rw [Nat.repr_of_lt (by omega)]
    simp
  have hchars := congrArg String.toList h
  rw [String.toList_append, String.toList_append] at hchars
  obtain ⟨harm, hid⟩ := List.append_inj hchars (by rw [hlen ha, hlen ha'])
  exact ⟨Nat.repr_injective (String.toList_inj.mp harm), Nat.repr_injective (String.toList_inj.mp hid)⟩

theorem eq_of_parts (ha : a.Proper) (hb : b.Proper) (hv : a.isVar = false) (hv' : b.isVar = false)
    (hs : a.stem = b.stem) (he : a.ending = b.ending) : a = b := by
  rcases a with l | id | x
  · rcases b with m | id' | y
    · cases l <;> cases m <;> simp [stem] at hs
      case chooseArm.chooseArm =>
        obtain ⟨rfl, rfl⟩ := arm_id_inj ha hb he
        rfl
      all_goals rw [Nat.repr_injective he]
    · cases l <;> simp [stem] at hs
    · cases hv'
  · rcases b with m | id' | y
    · cases m <;> simp [stem] at hs
    · rw [Nat.repr_injective he]
    · cases hv'
  · cases hv

theorem name_injective (ha : a.Proper) (hb : b.Proper) (h : a.name = b.name) : a = b := by
  have hk : a.isVar = b.isVar := by
    have hlast := a.last_name
    rw [h, b.last_name] at hlast
    exact (Bool.not_inj hlast).symm
  cases hv : a.isVar with
  | true =>
    rcases a with l | id | x
    · cases hv
    · cases hv
    · rcases b with m | id' | y
      · cases hk
      · cases hk
      · rw [(String.append_left_inj "r").mp h]
  | false =>
    have hv' : b.isVar = false := hk ▸ hv
    rw [name_eq, name_eq] at h
    obtain ⟨hs, he⟩ := stem_digits_inj (not_isDigit_of_mem_stem hv) (not_isDigit_of_mem_stem hv')
      (isDigit_of_mem_ending hv) (isDigit_of_mem_ending hv') h
    exact eq_of_parts ha hb hv hv' hs he

end Symbol

/-! ## Symbols of the code -/

def Slot.symbol : Slot → Symbol
  | .var x => .var x
  | .temp t => .temp t

namespace Instr

/-- The labels and slots that an instruction mentions. -/
def mentions : Instr → List Symbol
  | .alloca slot | .store _ slot | .load _ slot => [slot.symbol]
  | .branch _ yes no => [.label yes, .label no]
  | .jump l | .label l => [.label l]
  | _ => []

def Proper (i : Instr) : Prop := ∀ a ∈ i.mentions, a.Proper

/-- What an instruction defines. -/
def symbol? : Instr → Option Symbol
  | .alloca slot => some slot.symbol
  | .load t _ | .arith t _ _ _ | .test t _ _ => some (.temp t)
  | .label l => some (.label l)
  | _ => none

variable {i : Instr}

theorem Proper.symbol? {a : Symbol} (hi : i.Proper) (h : i.symbol? = some a) : a.Proper := by
  cases i with
  | alloca slot => exact hi a (by simpa [mentions, Instr.symbol?, eq_comm] using h)
  | label l => exact hi a (by simpa [mentions, Instr.symbol?, eq_comm] using h)
  | load t slot => cases h; trivial
  | arith t a l r => cases h; trivial
  | test t k v => cases h; trivial
  | _ => cases h

theorem symbol?_eq_label {l : Label} : i.symbol? = some (.label l) ↔ i = .label l := by
  cases i with
  | alloca slot => cases slot <;> simp [symbol?, Slot.symbol]
  | _ => simp [symbol?]

theorem symbol?_eq_temp {t : Nat} : i.symbol? = some (.temp t) ↔ i.defines? = some t := by
  cases i with
  | alloca slot => cases slot <;> simp [symbol?, Slot.symbol, defines?]
  | _ => simp [symbol?, defines?]

theorem symbol?_eq_var {x : String} : i.symbol? = some (.var x) ↔ i = .alloca (.var x) := by
  cases i with
  | alloca slot => cases slot <;> simp [symbol?, Slot.symbol]
  | _ => simp [symbol?]

end Instr

def symbols (code : List Instr) : List Symbol := code.filterMap Instr.symbol?

theorem proper_of_mem_symbols {code : List Instr} (h : ∀ i ∈ code, i.Proper) :
    ∀ a ∈ symbols code, a.Proper := by
  intro a ha
  obtain ⟨i, hi, heq⟩ := List.mem_filterMap.mp ha
  exact (h i hi).symbol? heq

theorem Granted.count_eq {cs : List Instr} {x : String} (h : Granted cs x) :
    cs.count (.alloca (.var x)) = 1 := by
  obtain ⟨front, back, rfl, hf, hb, _⟩ := h
  simp [List.count_append, List.count_eq_zero.mpr hf, List.count_eq_zero.mpr hb]

theorem Draft.Consistent.symbols_nodup {d : Draft} (h : d.Consistent) : (symbols d.code).Nodup := by
  refine List.nodup_iff_count_le_one.mpr fun a => ?_
  rw [symbols, List.count_filterMap]
  cases a with
  | label l =>
    have hcount : d.code.countP (fun i => i.symbol? == some (.label l)) = d.code.count (.label l) :=
      List.countP_congr fun i _ => by simp [Instr.symbol?_eq_label]
    rw [hcount]
    by_cases hl : .label l ∈ d.code
    · exact Nat.le_of_eq (h.labels l hl).2
    · rw [List.count_eq_zero.mpr hl]
      exact Nat.zero_le 1
  | temp t =>
    have hcount : d.code.countP (fun i => i.symbol? == some (.temp t)) = (definedTemps d.code).count t := by
      rw [definedTemps, List.count_filterMap]
      exact List.countP_congr fun i _ => by simp [Instr.symbol?_eq_temp]
    rw [hcount]
    exact List.nodup_iff_count_le_one.mp h.temps_nodup t
  | var x =>
    have hcount : d.code.countP (fun i => i.symbol? == some (.var x)) = d.code.count (.alloca (.var x)) :=
      List.countP_congr fun i _ => by simp [Instr.symbol?_eq_var]
    rw [hcount]
    by_cases hx : x ∈ d.vars
    · exact Nat.le_of_eq (h.granted x hx).count_eq
    · rw [List.count_eq_zero.mpr fun hm => hx ((h.allocated x).mpr hm)]
      exact Nat.zero_le 1

theorem Label.Issued.proper {d d' : Draft} {l : Label} (h : l.Issued d d') : (Symbol.label l).Proper := by
  cases l with
  | chooseArm arm id => exact Nat.le_of_lt_succ h.1
  | _ => trivial

theorem proper_of_mem {d : Draft} {cs : List Instr} (hs : Slotted {} cs d) (hf : Fragment {} cs d)
    {i : Instr} (hi : i ∈ cs) : i.Proper := by
  have hvar : ∀ {x}, x ∈ d.vars → (Symbol.var x).Proper := by
    intro x hx
    exact (hs.named x hx).resolve_left List.not_mem_nil
  have htarget : ∀ {l}, l ∈ i.targets → (Symbol.label l).Proper := by
    intro l hl
    exact (hf.issued_of_mem_targets (List.mem_flatMap.mpr ⟨i, hi, hl⟩)).proper
  have hslot : ∀ {slot : Slot}, (∀ x, slot = .var x → x ∈ d.vars) → slot.symbol.Proper := by
    intro slot hx
    cases slot with
    | var x => exact hvar (hx x rfl)
    | temp t => trivial
  cases i with
  | alloca slot => exact List.forall_mem_singleton.mpr (hslot fun x hx => (hs.fresh x (hx ▸ hi)).1)
  | store v slot => exact List.forall_mem_singleton.mpr (hslot fun x hx => hs.used _ hi x (congrArg some hx))
  | load t slot => exact List.forall_mem_singleton.mpr (hslot fun x hx => hs.used _ hi x (congrArg some hx))
  | branch t yes no =>
    simp only [Instr.Proper, Instr.mentions, List.forall_mem_cons]
    exact ⟨htarget (by simp [Instr.targets]), htarget (by simp [Instr.targets]), by simp⟩
  | jump l => exact List.forall_mem_singleton.mpr (htarget (by simp [Instr.targets]))
  | label l => exact List.forall_mem_singleton.mpr (hf.mem_iff.mp hi).proper
  | _ => exact List.forall_mem_nil _

section
variable {source : String} {code : List Instr}

theorem proper_of_lowerSource (h : lowerSource source = .ok code) : ∀ i ∈ code, i.Proper := by
  obtain ⟨_, _, d, _, _, hc, _, hd, rfl⟩ := emits_of_lowerProgram h
  intro i hi
  exact proper_of_mem (hc.slotted.append hd.slotted) (hc.fragment.append hd.fragment) hi

theorem symbols_nodup_of_lowerSource (h : lowerSource source = .ok code) : (symbols code).Nodup := by
  obtain ⟨_, _, d, _, _, hc, _, hd, rfl⟩ := emits_of_lowerProgram h
  have hgrows := hc.grows.trans hd.grows
  have hcode : d.code = _ := hgrows.code
  rw [List.nil_append] at hcode
  rw [← hcode]
  exact hgrows.consistent.symbols_nodup

end

end SlotCompiler
