import Reckoner.Proofs.Outcomes
import Reckoner.Proofs.Writing

/-! Shown numbers read back.

Reading undoes showing: a finite number is shown as a numeral that is the whole text, and
infinity and NaN by their words, so each is read back bit for bit but for the negative zero,
which is shown without its sign (`readNumber_result`). So what is shown of a formula may be given
for a variable in another one, and `readNumber_write`: it stands there for the formula's value. -/
namespace Reckoner
open Binary64 (code isNegative)

/-! ### Numbers -/

/-- What is left of a number when it is shown: all but the sign of a zero. -/
def shownPart (v : Float) : Float := if v = -0.0 then 0.0 else v

theorem eq_negZero_iff {v : Float} : v = -0.0 ↔ isNegative v = true ∧ code v = 0 := by
  have hsign : isNegative (-0.0) = true := by decide +kernel
  have hcode : code (-0.0) = 0 := by decide +kernel
  constructor
  · rintro rfl
    exact ⟨hsign, hcode⟩
  · rintro ⟨hneg, hzero⟩
    exact Binary64.eq_of_isNegative_eq_of_code_eq (hneg.trans hsign.symm) (hzero.trans hcode.symm)

theorem shownPart_of_code_ne {v : Float} (h : code v ≠ 0) : shownPart v = v :=
  if_neg fun hzero => h (eq_negZero_iff.1 hzero).2

theorem shownPart_of_code_eq {v : Float} (h : code v = 0) : shownPart v = 0.0 := by
  rw [shownPart]
  split
  · rfl
  · rename_i hne
    have hpositive : isNegative v = false := by
      rw [← Bool.not_eq_true]
      exact fun hneg => hne (eq_negZero_iff.2 ⟨hneg, h⟩)
    have hsign : isNegative 0.0 = false := by decide +kernel
    have hcode : code 0.0 = 0 := by decide +kernel
    exact Binary64.eq_of_isNegative_eq_of_code_eq (hpositive.trans hsign.symm) (h.trans hcode.symm)

theorem readNumber_of_isFinite {v : Float} (h : v.isFinite) :
    readNumber (Style.result.write v) = shownPart v := by
  obtain ⟨n, hn, htext, hvalue⟩ := Style.result.exists_numeral h
  rw [← String.ofList_toList (s := Style.result.write v), ← htext, hn.readNumber_text, hvalue]
  by_cases hzero : code v = 0
  · have hsigns : Style.result.signs v = false := by simp [Style.signs, Style.result, hzero]
    rw [hsigns, hzero, shownPart_of_code_eq hzero]
    decide +kernel
  · have hsigns : Style.result.signs v = isNegative v := by simp [Style.signs, hzero]
    rw [hsigns, Binary64.ofCode_code, shownPart_of_code_ne hzero]

/-- What is shown of a number is read back. -/
theorem readNumber_result (v : Float) : readNumber (Style.result.write v) = shownPart v := by
  have hinfinity : 0 < Binary64.infinity := by decide
  rcases Binary64.isNaN_or_isInf_or_isFinite v with hnan | hinf | hfinite
  · have hread : readNumber "NaN" = Binary64.nan := by decide +kernel
    have hcode := Binary64.isNaN_iff.1 hnan
    rw [Style.write_of_isNaN _ hnan, hread, shownPart_of_code_ne (by omega)]
    exact Binary64.eq_of_isNaN Binary64.isNaN_nan hnan
  · have hread (negative : Bool) : readNumber (String.ofList
        ((if negative then ['-'] else []) ++ Style.result.infinity.toList)) =
        Binary64.ofCode negative Binary64.infinity := by
      cases negative <;> decide +kernel
    have hcode := Binary64.isInf_iff.1 hinf
    rw [Style.write_of_isInf _ hinf, hread, ← hcode, Binary64.ofCode_code,
      shownPart_of_code_ne (by omega)]
  · exact readNumber_of_isFinite hfinite

theorem code_shownPart (v : Float) : code (shownPart v) = code v := by
  by_cases h : code v = 0
  · rw [shownPart_of_code_eq h, h]
    decide +kernel
  · rw [shownPart_of_code_ne h]

/-- Numbers that are shown alike are equal. -/
theorem beq_of_write_eq {v w : Float} (hnan : v.isNaN = false)
    (h : Style.result.write v = Style.result.write w) : v == w := by
  have hpart : shownPart v = shownPart w := by
    rw [← readNumber_result, h, readNumber_result]
  have hcode : code v = code w := by
    rw [← code_shownPart, hpart, code_shownPart]
  by_cases hzero : code v = 0
  · exact Binary64.beq_of_code_eq_zero hzero (hcode ▸ hzero)
  · rw [shownPart_of_code_ne hzero, shownPart_of_code_ne (hcode ▸ hzero)] at hpart
    rw [← hpart]
    exact Binary64.beq_self_of_not_isNaN hnan

/-! ### Results given for variables -/

namespace Formula

/-- A name that is no function's, by itself, has the number its text holds for a value. -/
theorem evaluate_name {name : String} (hne : name ≠ "") (hname : name.toList.all Char.isAlpha)
    (hfree : Elementary.ofName? name = none) (b : Bindings) (text : String) :
    evaluate name (b.bind name text) = .ok (readNumber text) := by
  have htokens : Token.ofText name = .ok [.var name none] := by
    have hread := (@Spells.var name none hne hname hfree nofun).read
    rwa [Numeral.suffix, List.append_nil] at hread
  have hnumber : (b.bind name text).number name = .ok (readNumber text) := by
    rw [Bindings.number, Bindings.get?_bind, if_pos rfl]
  refine evaluate_eq_ok_iff_stages.2 ⟨_, _, htokens, rfl, Postfix.value_eq_ok_iff_stackAfter.2 ?_⟩
  simp [Postfix.stackAfter, Postfix.act, hnumber, raise]

/-- What is shown of a value holds the value. -/
theorem readNumber_display {text : String} {b : Bindings} {v : Float}
    (h : evaluate text b = .ok v) : readNumber (display text b) = shownPart v := by
  rw [display, outcome_of_evaluate h]
  exact readNumber_result v

end Formula

/-- **What is shown of a number is read back**: NaN as NaN, the negative zero as zero, and every
other number bit for bit, the finite ones to the last character. So only equal numbers are shown
alike, and a result that is given for a variable is the variable's value. -/
theorem readNumber_write :
    (∀ v : Float, v.isNaN → (readNumber (Style.result.write v)).isNaN) ∧
    (readNumber (Style.result.write (-0.0))).toBits = (0.0 : Float).toBits ∧
    (∀ v : Float, v.isNaN = false → v ≠ -0.0 →
      (readNumber (Style.result.write v)).toBits = v.toBits) ∧
    (∀ v : Float, v.isFinite → ∃ n : Numeral,
      Numeral.ofText (Text.dropBlanks (Style.result.write v).toList) = some (n, [])) ∧
    (∀ v w : Float, v.isNaN = false → w.isNaN = false →
      Style.result.write v = Style.result.write w → v == w) ∧
    ∀ (text : String) (b : Bindings) (v : Float), Formula.evaluate text b = .ok v →
      ∀ (other : Bindings) (name : String),
        (other.bind name (Formula.display text b)).number name = .ok (shownPart v) ∧
        (name ≠ "" → name.toList.all Char.isAlpha → Elementary.ofName? name = none →
          Formula.evaluate name (other.bind name (Formula.display text b)) =
            .ok (shownPart v)) := by
  refine ⟨fun v hnan => ?_, ?_, fun v _ hzero => ?_, fun v hfinite => ?_,
    fun v w hnan _ h => beq_of_write_eq hnan h, fun text b v hvalue other name => ⟨?_, ?_⟩⟩
  · have hne : v ≠ -0.0 := by
      rintro rfl
      exact absurd hnan (by decide +kernel)
    rw [readNumber_result, shownPart, if_neg hne]
    exact hnan
  · rw [readNumber_result, shownPart, if_pos rfl]
  · rw [readNumber_result, shownPart, if_neg hzero]
  · obtain ⟨n, hn, htext, -⟩ := Style.result.exists_numeral hfinite
    rw [← htext, hn.dropBlanks_text]
    exact ⟨n, hn.ofText_text⟩
  · rw [Bindings.number, Bindings.get?_bind, if_pos rfl, ← Formula.readNumber_display hvalue]
  · intro hne hname hfree
    rw [Formula.evaluate_name hne hname hfree, Formula.readNumber_display hvalue]

/-- A number with a power of ten, both zeros, and a result that is given for `x`. -/
theorem readNumber_write_small :
    (readNumber (Style.result.write 1.5e-7)).toBits = (1.5e-7 : Float).toBits ∧
      (0.0 : Float) == -0.0 ∧
      Formula.evaluate "x" (.bind .empty "x" (Formula.display "2.50" .empty)) =
        .ok (shownPart (readNumber "2.50")) := by
  obtain ⟨-, -, hsame, -, halike, hgiven⟩ := readNumber_write
  exact ⟨hsame _ (by decide +kernel) (by decide +kernel),
    halike _ _ (by decide +kernel) (by decide +kernel) (by decide +kernel),
    (hgiven "2.50" .empty _ rfl .empty "x").2 (by decide) (by decide) (by decide)⟩

end Reckoner
