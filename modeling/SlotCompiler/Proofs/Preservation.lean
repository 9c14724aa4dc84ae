import SlotCompiler.Proofs.Layout
import SlotCompiler.Proofs.Lexing

/-!
# Preservation of meaning

Every program whose variables have names can be laid out, and a source with the lines of the layout
compiles to a routine that ends as the program does, with the same output:
`compile_preserves_meaning`.
-/

namespace SlotCompiler

/-! ## Existence of a layout -/

def Expr.Named : Expr → Prop
  | .lit _ => True
  | .var x => Token.isName x
  | .op _ l r => l.Named ∧ r.Named
  | .choose s z p n => s.Named ∧ z.Named ∧ p.Named ∧ n.Named

def Program.Named : Program → Prop
  | .done => True
  | .assign x e next => Token.isName x ∧ e.Named ∧ next.Named
  | .print e next => e.Named ∧ next.Named
  | .control _ cond body next => cond.Named ∧ body.Named ∧ next.Named

theorem digits?_repr (k : Nat) : digits? k.repr.toList = some k := by
  have hall : k.repr.toList.all Char.isDigit := List.all_eq_true.mpr fun _ => isDigit_of_mem_repr
  rw [digits?, Nat.toList_repr, if_pos ⟨Nat.toDigits_ne_nil, Nat.toList_repr ▸ hall⟩,
    Nat.ofDigitChars_ten_toDigits]

theorem isDigits_repr (k : Nat) : Token.isDigits k.repr := by
  have hne : k.repr.toList ≠ [] := by rw [Nat.toList_repr]; exact Nat.toDigits_ne_nil
  obtain ⟨c, cs, hc⟩ := List.exists_cons_of_ne_nil hne
  have hd : c.isDigit := isDigit_of_mem_repr (k := k) (by simp [hc])
  simp [Token.isDigits, hc, hd]

theorem number?_repr (k : Nat) : Token.number? k.repr = int32? k := by
  unfold Token.number?
  split
  · rename_i ds ht
    exact absurd (isDigit_of_mem_repr (k := k) (by simp [ht] : '-' ∈ k.repr.toList)) (by decide)
  · rename_i ds ht
    exact absurd (isDigit_of_mem_repr (k := k) (by simp [ht] : '+' ∈ k.repr.toList)) (by decide)
  · rw [digits?_repr, Option.bind_some]

theorem number?_minus_repr (k : Nat) : Token.number? ("-" ++ k.repr) = int32? (-k) := by
  have ht : ("-" ++ k.repr).toList = '-' :: k.repr.toList := by simp
  simp only [Token.number?, ht, digits?_repr, Option.bind_some]

theorem int32?_toInt (n : Int32) : int32? n.toInt = some n := by
  have hlo := n.le_toInt
  have hhi := n.toInt_lt
  rw [int32?, if_pos (by omega), Int32.ofInt_toInt]

theorem Expr.exists_spelled_lit (n : Int32) : ∃ ts, Spelled 3 (.lit n) ts := by
  by_cases hn : 0 ≤ n.toInt
  · refine ⟨_, .int (isDigits_repr n.toInt.toNat) ?_⟩
    rw [number?_repr, Int.toNat_of_nonneg hn, int32?_toInt]
  · refine ⟨_, .negative (isDigits_repr (-n.toInt).toNat) ?_⟩
    rw [number?_minus_repr, Int.toNat_of_nonneg (by omega), Int.neg_neg, int32?_toInt]

theorem Expr.exists_spelled {e : Expr} (h : e.Named) : ∃ ts, Spelled 3 e ts := by
  induction e with
  | lit n => exact exists_spelled_lit n
  | var x => exact ⟨[x], .var h⟩
  | op a l r ihl ihr =>
    obtain ⟨ls, hl⟩ := ihl h.1
    obtain ⟨rs, hr⟩ := ihr h.2
    cases a with
    | add => exact ⟨_, .paren (.op (a := .add) hl.lower.lower hr.lower)⟩
    | sub => exact ⟨_, .paren (.op (a := .sub) hl.lower.lower hr.lower)⟩
    | mul => exact ⟨_, .paren (.lower (.op (a := .mul) hl.lower hr))⟩
    | div => exact ⟨_, .paren (.lower (.op (a := .div) hl.lower hr))⟩
  | choose s z p n ihs ihz ihp ihn =>
    obtain ⟨ss, hs⟩ := ihs h.1
    obtain ⟨zs, hz⟩ := ihz h.2.1
    obtain ⟨ps, hp⟩ := ihp h.2.2.1
    obtain ⟨ns, hn⟩ := ihn h.2.2.2
    exact ⟨_, .choose hs.lower.lower hz.lower.lower hp.lower.lower hn.lower.lower⟩

theorem Program.exists_laid {P : Program} (h : P.Named) : ∃ ls, Laid P ls := by
  induction P with
  | done => exact ⟨[], .done⟩
  | assign x e next ih =>
    obtain ⟨ts, he⟩ := Expr.exists_spelled h.2.1
    obtain ⟨ls, hnext⟩ := ih h.2.2
    exact ⟨_, .assign h.1 he.lower.lower hnext⟩
  | print e next ih =>
    obtain ⟨ts, he⟩ := Expr.exists_spelled h.1
    obtain ⟨ls, hnext⟩ := ih h.2
    exact ⟨_, .print he.lower.lower hnext⟩
  | control c cond body next ihb ihn =>
    obtain ⟨ts, he⟩ := Expr.exists_spelled h.1
    obtain ⟨bs, hbody⟩ := ihb h.2.1
    obtain ⟨ls, hnext⟩ := ihn h.2.2
    exact ⟨_, .control he.lower.lower hbody hnext⟩

/-! ## Compiled layouts -/

/-- A layout compiles to a routine that prints what the program prints and ends as it ends. -/
theorem compile_preserves_meaning {P : Program} (hn : P.Named) (hz : P.NoZeroDivisor) :
    (∃ ls, Laid P ls) ∧ ∀ ls, Laid P ls →
      (readLines (sourceText ls)).map Line.tokens = ls ∧
      ∀ source, (readLines source).map Line.tokens = ls → ∃ code,
        lowerSource source = .ok code ∧ compile source = ⟨moduleText code, .accepted⟩ ∧
        (∀ out, (∃ fuel env, P.run fuel (fun _ => 0) [] = .finished env out) ↔
          ∃ fuel, Machine.run code fuel {} = .done (out.map .value)) ∧
        (∀ out, (∃ fuel, P.run fuel (fun _ => 0) [] = .fault out) ↔
          ∃ fuel, Machine.run code fuel {} = .fault (out.map .value)) ∧
        ∀ fuel, Machine.run code fuel {} ≠ .stuck := by
  refine ⟨Program.exists_laid hn, fun ls h => ⟨h.readLines_sourceText, fun source ht => ?_⟩⟩
  obtain ⟨code, vars, hok, hm⟩ := h.matches hz ht
  have hsource : lowerSource source = .ok code := hok
  have hcompile : compile source = ⟨moduleText code, .accepted⟩ := by rw [compile, hsource]
  exact ⟨code, hsource, hcompile, Machine.finished_iff_done hm, Machine.fault_iff_fault hm,
    Machine.run_ne_stuck hm⟩

theorem compile_preserves_countdown :
    let body : Program := .print (.choose (.op .sub (.var "n") (.lit 2)) (.op .div (.lit 10) (.var "n"))
      (.lit 0) (.lit (-7))) (.assign "n" (.op .sub (.var "n") (.lit 1)) .done)
    let P : Program := .assign "n" (.lit 2) (.control .loop (.var "n") body .done)
    P.Named ∧ P.NoZeroDivisor ∧ ∃ ls code, Laid P ls ∧ lowerSource (sourceText ls) = .ok code ∧
      ∃ fuel, Machine.run code fuel {} = .done [.value 5, .value (-7)] := by
  intro body P
  have hn : P.Named := by
    simp only [P, body, Program.Named, Expr.Named, true_and, and_true]
    decide
  have hz : P.NoZeroDivisor := by
    simp [P, body, Program.NoZeroDivisor, Expr.NoZeroDivisor]
  obtain ⟨⟨ls, hl⟩, h⟩ := compile_preserves_meaning hn hz
  obtain ⟨hread, hsource⟩ := h ls hl
  obtain ⟨code, hok, _, hdone, _⟩ := hsource (sourceText ls) hread
  exact ⟨hn, hz, ls, code, hl, hok, (hdone [5, -7]).mp ⟨8, _, rfl⟩⟩

end SlotCompiler
