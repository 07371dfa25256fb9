import Mathlib.Algebra.Order.Field.Power
import Mathlib.Algebra.Order.Group.Unbundled.Abs
import Mathlib.Tactic.FieldSimp
import Mathlib.Tactic.Linarith
import Mathlib.Tactic.NormNum
import Mathlib.Tactic.Positivity
import Mathlib.Tactic.Ring
import Reckoner.Number.Decimal

/-! Correct rounding.

A code `IsNearest` to a number if every other magnitude is farther away from the number, or
as far and the code is even. Infinity counts as the magnitude 2¹⁰²⁴, which would be the next
one. No number has two nearest codes (`IsNearest.unique`), so what is read of a number is
settled by its value.

`Decimal.isNearest_nearest`: a decimal is read as the code nearest to it, also where powers of
ten are cut on the way. `Decimal.nearest_shortest`: the decimal that writes a magnitude is read
back as it. -/
namespace Reckoner

namespace Binary64

/-! ### Magnitudes -/

/-- The codes from one power of two to the next are evenly spaced, and the first code of the
next power continues them. -/
theorem units_add {shift m : Nat} (hlow : shift = 0 ∨ Nat.pow 2 52 ≤ m)
    (hhigh : m ≤ 2 * Nat.pow 2 52) :
    units (shift * Nat.pow 2 52 + m) = m * Nat.pow 2 shift := by
  have hstep : Nat.pow 2 52 = 4503599627370496 := rfl
  simp only [units, hstep] at hlow hhigh ⊢
  by_cases hm : m < 4503599627370496
  · obtain rfl : shift = 0 := by omega
    rw [if_pos (by omega), Nat.zero_mul, Nat.zero_add]
    exact (Nat.mul_one m).symm
  rw [if_neg (by omega)]
  by_cases hlast : m = 2 * 4503599627370496
  · have hdiv : (shift * 4503599627370496 + m) / 4503599627370496 - 1 = shift + 1 := by omega
    have hmod : (shift * 4503599627370496 + m) % 4503599627370496 = 0 := by omega
    have hpower : Nat.pow 2 (shift + 1) = 2 * Nat.pow 2 shift := Nat.pow_succ'
    rw [hdiv, hmod, hlast, hpower]
    omega
  · have hdiv : (shift * 4503599627370496 + m) / 4503599627370496 - 1 = shift := by omega
    have hmod : 4503599627370496 + (shift * 4503599627370496 + m) % 4503599627370496 = m := by
      omega
    rw [hdiv, hmod]

theorem units_succ (code : Nat) :
    units (code + 1) = units code + Nat.pow 2 (code / Nat.pow 2 52 - 1) := by
  generalize hshift : code / Nat.pow 2 52 - 1 = shift
  obtain ⟨m, rfl⟩ : ∃ m, code = shift * Nat.pow 2 52 + m := by
    refine Nat.exists_eq_add_of_le (hshift ▸ ?_)
    exact (Nat.mul_le_mul_right _ (Nat.sub_le _ 1)).trans (Nat.div_mul_le_self ..)
  have hstep : Nat.pow 2 52 = 4503599627370496 := rfl
  have hlow : shift = 0 ∨ Nat.pow 2 52 ≤ m := by
    rw [hstep] at hshift ⊢
    omega
  have hhigh : m + 1 ≤ 2 * Nat.pow 2 52 := by
    rw [hstep] at hshift ⊢
    omega
  rw [Nat.add_assoc, units_add hlow (by omega), units_add (by omega) hhigh, Nat.succ_mul]

theorem units_strictMono : StrictMono units :=
  strictMono_nat_of_lt_succ fun code => by
    have hpos : 0 < Nat.pow 2 (code / Nat.pow 2 52 - 1) := Nat.two_pow_pos _
    have hsucc := units_succ code
    omega

theorem one_pos : 0 < one := by
  delta one
  decide +kernel

/-- The magnitude of a code. That of infinity is 2¹⁰²⁴. -/
def magnitude (code : Nat) : ℚ := units code / one

theorem magnitude_strictMono : StrictMono magnitude := by
  intro a b h
  have hone : (0 : ℚ) < one := by exact_mod_cast one_pos
  have hunits : (units a : ℚ) < units b := by exact_mod_cast units_strictMono h
  exact div_lt_div_of_pos_right hunits hone

theorem magnitude_zero : magnitude 0 = 0 := by
  rw [magnitude, units, if_pos (by decide), Nat.cast_zero, zero_div]

/-! ### The nearest magnitude -/

/-- Every other magnitude is farther away from the number, or as far and this one's code is
even. -/
structure IsNearest (x : ℚ) (code : Nat) : Prop where
  le_infinity : code ≤ infinity
  closest : ∀ other ≤ infinity, other ≠ code →
    |x - magnitude code| < |x - magnitude other| ∨
      |x - magnitude code| = |x - magnitude other| ∧ code % 2 = 0

variable {x : ℚ} {code : Nat}

theorem isNearest_magnitude (h : code ≤ infinity) : IsNearest (magnitude code) code where
  le_infinity := h
  closest other _ hne := by
    rw [sub_self, abs_zero, abs_pos]
    exact .inl (sub_ne_zero.2 (magnitude_strictMono.injective.ne hne.symm))

/-- The lower neighbour of a number is nearest to it if the upper one is not nearer, and the
lower one has the even code if neither is. -/
theorem isNearest_below (hcode : code + 1 ≤ infinity) (hlow : magnitude code ≤ x)
    (hhalf : x - magnitude code < magnitude (code + 1) - x ∨
      x - magnitude code = magnitude (code + 1) - x ∧ code % 2 = 0) : IsNearest x code where
  le_infinity := by omega
  closest other _ hne := by
    rw [abs_of_nonneg (sub_nonneg.2 hlow)]
    rcases Nat.lt_or_gt_of_ne hne with hbelow | habove
    · have hmagnitude := magnitude_strictMono hbelow
      have hdistance := le_abs_self (x - magnitude other)
      exact .inl (by linarith)
    · have hmagnitude := magnitude_strictMono.monotone (Nat.succ_le_of_lt habove)
      have hdistance := neg_le_abs (x - magnitude other)
      rcases hhalf with hhalf | ⟨hhalf, heven⟩
      · exact .inl (by linarith)
      · have hle : x - magnitude code ≤ |x - magnitude other| := by linarith
        exact (lt_or_eq_of_le hle).imp_right fun h => ⟨h, heven⟩

theorem isNearest_above (hcode : code + 1 ≤ infinity) (hhigh : x ≤ magnitude (code + 1))
    (hhalf : magnitude (code + 1) - x < x - magnitude code ∨
      magnitude (code + 1) - x = x - magnitude code ∧ (code + 1) % 2 = 0) :
    IsNearest x (code + 1) where
  le_infinity := hcode
  closest other _ hne := by
    rw [abs_of_nonpos (sub_nonpos.2 hhigh), neg_sub]
    rcases Nat.lt_or_gt_of_ne hne with hbelow | habove
    · have hmagnitude := magnitude_strictMono.monotone (Nat.le_of_lt_succ hbelow)
      have hdistance := le_abs_self (x - magnitude other)
      rcases hhalf with hhalf | ⟨hhalf, heven⟩
      · exact .inl (by linarith)
      · have hle : magnitude (code + 1) - x ≤ |x - magnitude other| := by linarith
        exact (lt_or_eq_of_le hle).imp_right fun h => ⟨h, heven⟩
    · have hmagnitude := magnitude_strictMono habove
      have hdistance := neg_le_abs (x - magnitude other)
      exact .inl (by linarith)

theorem isNearest_infinity (h : magnitude infinity ≤ x) : IsNearest x infinity where
  le_infinity := Nat.le_refl _
  closest other hother hne := by
    have hmagnitude := magnitude_strictMono (Nat.lt_of_le_of_ne hother hne)
    have hdistance := le_abs_self (x - magnitude other)
    rw [abs_of_nonneg (sub_nonneg.2 h)]
    exact .inl (by linarith)

theorem isNearest_zero (hlow : 0 ≤ x) (hhigh : x < magnitude 1 / 2) : IsNearest x 0 := by
  refine isNearest_below (by decide) (by rwa [magnitude_zero]) (.inl ?_)
  rw [magnitude_zero]
  linarith

/-- No number has two nearest magnitudes: between two even codes lies an odd one, and its
magnitude would be nearer than both. -/
theorem IsNearest.unique {a b : Nat} (ha : IsNearest x a) (hb : IsNearest x b) : a = b := by
  by_contra hne
  wlog hlt : a < b generalizing a b
  · exact this hb ha (Ne.symm hne) (by omega)
  obtain ⟨hsame, heven, heven'⟩ :
      |x - magnitude a| = |x - magnitude b| ∧ a % 2 = 0 ∧ b % 2 = 0 := by
    rcases ha.closest b hb.le_infinity (Ne.symm hne) with hab | ⟨hab, heven⟩ <;>
      rcases hb.closest a ha.le_infinity hne with hba | ⟨hba, heven'⟩
    · exact absurd hab hba.asymm
    · exact absurd hab hba.not_gt.elim
    · exact absurd hba hab.not_gt.elim
    · exact ⟨hab, heven, heven'⟩
  have hbetween := magnitude_strictMono (show a < a + 1 by omega)
  have hbetween' := magnitude_strictMono (show a + 1 < b by omega)
  have hmiddle : x - magnitude a = -(x - magnitude b) := by
    rcases abs_eq_abs.1 hsame with h | h
    · linarith
    · exact h
  have hnearer : |x - magnitude (a + 1)| < |x - magnitude a| := by
    rw [abs_of_nonneg (show 0 ≤ x - magnitude a by linarith), abs_lt]
    constructor <;> linarith
  rcases ha.closest (a + 1) (hb.le_infinity.trans' (by omega)) (by omega) with h | ⟨h, -⟩ <;>
    linarith

/-! ### Rounding a quotient -/

/-- A quotient in steps of the power of two that leaves it 53 bits. -/
theorem shifted_quotient (num den : Nat) :
    num / (den * Nat.pow 2 ((num / den).log2 - 52)) < 2 * Nat.pow 2 52 ∧
      ((num / den).log2 - 52 = 0 ∨
        Nat.pow 2 52 ≤ num / (den * Nat.pow 2 ((num / den).log2 - 52))) := by
  rw [← Nat.div_div_eq_div_mul]
  generalize num / den = quotient
  have hlow : quotient.log2 - 52 = 0 ∨
      Nat.pow 2 52 * Nat.pow 2 (quotient.log2 - 52) ≤ quotient := by
    by_cases hlog : quotient.log2 ≤ 52
    · exact .inl (by omega)
    · have hne : quotient ≠ 0 := by
        rintro rfl
        exact hlog (by decide)
      have hself : 2 ^ quotient.log2 ≤ quotient := Nat.log2_self_le hne
      refine .inr (hself.trans' (Nat.le_of_eq ?_))
      rw [Nat.pow_eq, Nat.pow_eq, ← pow_add]
      congr 1
      omega
  have hhigh : quotient < 2 * Nat.pow 2 52 * Nat.pow 2 (quotient.log2 - 52) := by
    refine Nat.lt_log2_self.trans_le ?_
    rw [Nat.pow_eq, Nat.pow_eq, ← pow_succ', ← pow_add]
    exact Nat.pow_le_pow_right (by decide) (by omega)
  have hpos : 0 < Nat.pow 2 (quotient.log2 - 52) := Nat.two_pow_pos _
  refine ⟨(Nat.div_lt_iff_lt_mul hpos).2 hhigh, hlow.imp_right fun h => ?_⟩
  exact (Nat.le_div_iff_mul_le hpos).2 h

/-- A quotient lies between two neighbours, by as much above the lower one as its division
by their distance leaves over. -/
theorem sub_magnitude {num den shift floor rest : Nat} (hden : 0 < den)
    (hlow : shift = 0 ∨ Nat.pow 2 52 ≤ floor) (hhigh : floor < 2 * Nat.pow 2 52)
    (hnum : den * Nat.pow 2 shift * floor + rest = num) :
    (num / (den * one) - magnitude (shift * Nat.pow 2 52 + floor) : ℚ) = rest / (den * one) ∧
      (magnitude (shift * Nat.pow 2 52 + floor + 1) - num / (den * one) : ℚ) =
        (den * Nat.pow 2 shift - rest) / (den * one) := by
  have hden' : (den : ℚ) ≠ 0 := by exact_mod_cast hden.ne'
  have hone : (one : ℚ) ≠ 0 := by exact_mod_cast one_pos.ne'
  rw [magnitude, magnitude, Nat.add_assoc, units_add hlow (by omega), units_add (by omega) hhigh,
    ← hnum]
  push_cast
  constructor <;>
    · field_simp
      ring

/-- A number that divides the distance of its neighbours as the rest does the step goes to the
neighbour that `roundHalfEven` says. -/
theorem isNearest_roundHalfEven {x unit : ℚ} {base num step : Nat} (hunit : 0 < unit)
    (hbase : base % 2 = 0) (hstep : 0 < step)
    (hbelow : x - magnitude (base + num / step) = (num % step : Nat) / unit)
    (habove : magnitude (base + num / step + 1) - x = (step - (num % step : Nat)) / unit) :
    IsNearest x (min (base + roundHalfEven num step) infinity) := by
  have hrest : ((num % step : Nat) : ℚ) < step := by exact_mod_cast Nat.mod_lt _ hstep
  have hlow : magnitude (base + num / step) ≤ x := by
    rw [← sub_nonneg, hbelow]
    positivity
  have hhigh : x ≤ magnitude (base + num / step + 1) := by
    rw [← sub_nonneg, habove]
    exact div_nonneg (by linarith) hunit.le
  simp only [roundHalfEven]
  by_cases hinfinity : infinity ≤ base + num / step
  · rw [Nat.min_eq_right (by split <;> omega)]
    exact isNearest_infinity ((magnitude_strictMono.monotone hinfinity).trans hlow)
  cases hcompare : compare (2 * (num % step)) step with
  | lt =>
    have hhalf : (2 * (num % step : Nat) : ℚ) < step := by
      exact_mod_cast Nat.compare_eq_lt.1 hcompare
    dsimp only
    rw [Nat.min_eq_left (by omega)]
    refine isNearest_below (by omega) hlow (.inl ?_)
    rw [hbelow, habove, div_lt_div_iff_of_pos_right hunit]
    linarith
  | eq =>
    have hhalf : (2 * (num % step : Nat) : ℚ) = step := by
      exact_mod_cast Nat.compare_eq_eq.1 hcompare
    have hsame : x - magnitude (base + num / step) = magnitude (base + num / step + 1) - x := by
      rw [hbelow, habove]
      congr 1
      linarith
    dsimp only
    rcases Nat.mod_two_eq_zero_or_one (num / step) with hfloor | hfloor
    · rw [hfloor, Nat.add_zero, Nat.min_eq_left (by omega)]
      exact isNearest_below (by omega) hlow (.inr ⟨hsame, by omega⟩)
    · rw [hfloor, ← Nat.add_assoc, Nat.min_eq_left (by omega)]
      exact isNearest_above (by omega) hhigh (.inr ⟨hsame.symm, by omega⟩)
  | gt =>
    have hhalf : (step : ℚ) < 2 * (num % step : Nat) := by
      exact_mod_cast Nat.compare_eq_gt.1 hcompare
    dsimp only
    rw [← Nat.add_assoc, Nat.min_eq_left (by omega)]
    refine isNearest_above (by omega) hhigh (.inl ?_)
    rw [hbelow, habove, div_lt_div_iff_of_pos_right hunit]
    linarith

/-- **Rounding is correct**: the code of a quotient of units is that of the nearest magnitude. -/
theorem isNearest_nearest (num : Nat) {den : Nat} (hden : 0 < den) :
    IsNearest (num / (den * one)) (nearest num den) := by
  obtain ⟨hhigh, hlow⟩ := shifted_quotient num den
  obtain ⟨hbelow, habove⟩ := sub_magnitude hden hlow hhigh (Nat.div_add_mod ..)
  have hunit : (0 : ℚ) < den * one := by exact_mod_cast Nat.mul_pos hden one_pos
  refine isNearest_roundHalfEven hunit ?_ (Nat.mul_pos hden (Nat.two_pow_pos _)) hbelow ?_
  · rw [Nat.mul_mod]
    rfl
  · rw [habove]
    push_cast
    rfl

theorem magnitude_infinity : magnitude infinity = 2 ^ 1024 := by
  have hunits : units infinity = 2 ^ 1024 * one := by
    delta one
    decide +kernel
  have hone : (one : ℚ) ≠ 0 := by exact_mod_cast one_pos.ne'
  rw [magnitude, hunits, Nat.cast_mul, mul_div_cancel_right₀ _ hone, Nat.cast_pow]
  rfl

end Binary64

namespace Decimal
open Binary64

/-- The number that a decimal denotes. -/
def toRat (d : Decimal) : ℚ := d.digits * 10 ^ d.exponent

/-- What is left of a decimal when its powers of ten are cut is read correctly. -/
theorem isNearest_cut (digits : Nat) (exponent : Int) :
    IsNearest (digits * 10 ^ min exponent.toNat 310 /
      10 ^ min (-exponent).toNat (digits.log2 + 400)) (nearest ⟨digits, exponent⟩) := by
  have hone : (one : ℚ) ≠ 0 := by exact_mod_cast one_pos.ne'
  have hden : 0 < Nat.pow 10 (min (-exponent).toNat (digits.log2 + 400)) :=
    Nat.pow_pos (by decide)
  have hnearest := Binary64.isNearest_nearest
    (digits * Nat.pow 10 (min exponent.toNat 310) * one) hden
  rw [Nat.cast_mul, mul_div_mul_right _ _ hone] at hnearest
  simp only [Nat.pow_eq, Nat.cast_mul, Nat.cast_pow, Nat.cast_ofNat] at hnearest
  exact hnearest

/-- Digits that are far before the point are more than every number. -/
theorem magnitude_infinity_le {digits zeros : Nat} (hdigits : digits ≠ 0) (h : 310 ≤ zeros) :
    magnitude infinity ≤ digits * 10 ^ zeros := by
  have hpower : 2 ^ 1024 ≤ digits * 10 ^ zeros :=
    calc 2 ^ 1024 ≤ 1 * 10 ^ 310 := by decide +kernel
      _ ≤ digits * 10 ^ zeros :=
          Nat.mul_le_mul (Nat.pos_of_ne_zero hdigits) (Nat.pow_le_pow_right (by decide) h)
  rw [magnitude_infinity]
  exact_mod_cast hpower

/-- Digits that are far behind the point are less than half of the smallest magnitude. -/
theorem lt_half_magnitude_one {digits places : Nat} (h : digits.log2 + 400 ≤ places) :
    (digits / 10 ^ places : ℚ) < magnitude 1 / 2 := by
  have hdigits : digits * (one * 2) < 10 ^ places :=
    calc digits * (one * 2) < 2 ^ (digits.log2 + 1) * (one * 2) :=
          Nat.mul_lt_mul_of_pos_right Nat.lt_log2_self (Nat.mul_pos one_pos (by decide))
      _ = 2 ^ digits.log2 * (2 * (one * 2)) := by rw [pow_succ, Nat.mul_assoc]
      _ ≤ 10 ^ digits.log2 * 10 ^ 400 := by
          refine Nat.mul_le_mul (Nat.pow_le_pow_left (by decide) _) ?_
          delta one
          decide +kernel
      _ = 10 ^ (digits.log2 + 400) := (pow_add ..).symm
      _ ≤ 10 ^ places := Nat.pow_le_pow_right (by decide) h
  have hone : (0 : ℚ) < one := by exact_mod_cast one_pos
  have hunit : magnitude 1 = 1 / one := by
    rw [magnitude, units, if_pos (by decide), Nat.cast_one]
  rw [hunit, div_div, div_lt_div_iff₀ (by positivity) (by positivity), one_mul]
  exact_mod_cast hdigits

/-- **A decimal is read as the nearest magnitude.** -/
theorem isNearest_nearest (d : Decimal) : IsNearest d.toRat d.nearest := by
  obtain ⟨digits, exponent⟩ := d
  have hcut := isNearest_cut digits exponent
  rw [toRat]
  rcases Int.le_total 0 exponent with hsign | hsign
  · obtain ⟨zeros, rfl⟩ := Int.eq_ofNat_of_zero_le hsign
    have hplaces : (-(zeros : Int)).toNat = 0 := by omega
    simp only [hplaces, Nat.zero_min, pow_zero, div_one, Int.toNat_natCast] at hcut
    rw [zpow_natCast]
    rcases Nat.le_total zeros 310 with hzeros | hzeros
    · rwa [min_eq_left hzeros] at hcut
    · rw [min_eq_right hzeros] at hcut
      by_cases hdigits : digits = 0
      · simpa [hdigits] using hcut
      · rw [hcut.unique (isNearest_infinity (magnitude_infinity_le hdigits (Nat.le_refl _)))]
        exact isNearest_infinity (magnitude_infinity_le hdigits hzeros)
  · obtain ⟨places, hplaces⟩ := Int.eq_ofNat_of_zero_le (Int.neg_nonneg_of_nonpos hsign)
    obtain rfl : exponent = -(places : Int) := by omega
    have hzeros : (-(places : Int)).toNat = 0 := by omega
    simp only [hzeros, neg_neg, Int.toNat_natCast, Nat.zero_min, pow_zero, mul_one] at hcut
    rw [zpow_neg, zpow_natCast, ← div_eq_mul_inv]
    rcases Nat.le_total places (digits.log2 + 400) with hplaces | hplaces
    · rwa [min_eq_left hplaces] at hcut
    · rw [min_eq_right hplaces] at hcut
      rw [hcut.unique (isNearest_zero (by positivity) (lt_half_magnitude_one (Nat.le_refl _)))]
      exact isNearest_zero (by positivity) (lt_half_magnitude_one hplaces)

/-- How a decimal is read depends on its value alone. -/
theorem nearest_eq_of_toRat_eq {d e : Decimal} (h : d.toRat = e.toRat) : d.nearest = e.nearest :=
  (isNearest_nearest d).unique (h ▸ isNearest_nearest e)

/-! ### Reading back -/

theorem fine_pos : 0 < fine := by
  delta fine
  decide +kernel

/-- On the finest grid a magnitude is written exactly. -/
theorem toRat_exact (code : Nat) : (onGrid (exact code) 0).toRat = magnitude code := by
  have hpower : one * fine = 10 ^ 1074 := by
    delta fine one
    decide +kernel
  have hgrid : (10 : ℚ) ^ (((0 : Nat) : Int) - 1074) = (one * fine : ℚ)⁻¹ := by
    rw [← Nat.cast_mul, hpower, Nat.cast_pow]
    exact zpow_neg (10 : ℚ) ((1074 : Nat) : Int)
  have hfine : (fine : ℚ) ≠ 0 := by exact_mod_cast fine_pos.ne'
  rw [onGrid, exact, toRat, magnitude, hgrid, Nat.cast_mul, ← div_eq_mul_inv,
    mul_div_mul_right _ _ hfine]

theorem nearest_search {code : Nat} (h : code ≤ infinity) (j : Nat) :
    (search code j).nearest = code := by
  induction j with
  | zero => exact (isNearest_nearest _).unique (toRat_exact code ▸ isNearest_magnitude h)
  | succ j ih =>
    rw [search]
    cases hfound : neighbour? code (j + 1) with
    | none => exact ih
    | some d => exact nearest_of_neighbour? hfound

/-- **What writes a magnitude is read back as it.** -/
theorem nearest_shortest {code : Nat} (h : code ≤ infinity) : (shortest code).nearest = code :=
  nearest_search h _

end Decimal
end Reckoner
