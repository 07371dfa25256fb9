import Reckoner.Number.Style
import Reckoner.Proofs.NumberReading

/-! Numbers as they are written.

A finite number is written as a numeral, whether its digits are written out or a power of ten
is: `exists_positional` and `exists_scientific` give a numeral with the text and the value of a
decimal. The decimal that writes a magnitude is read back as it, and so is the numeral
(`Style.exists_numeral`). -/
namespace Reckoner
open Binary64 (code isNegative)

/-! ### Decimals -/

/-- A numeral without sign that has the text, and the value of the decimal. -/
structure Numeral.Shows (n : Numeral) (d : Decimal) (text : List Char) : Prop where
  formed : n.Formed
  sign : n.sign = none
  text : n.text = text
  value : n.decimal.toRat = d.toRat

theorem Numeral.formed_unsigned {whole : List Char} {fraction : Option (List Char)}
    (hwhole : ∀ c ∈ whole, c.isDigit) (hfraction : ∀ c ∈ fraction.getD [], c.isDigit)
    (hne : whole ≠ []) : Formed ⟨none, whole, fraction, none⟩ where
  whole := hwhole
  fraction := hfraction
  digits := .inl hne
  exponent _ he := absurd he (Option.not_mem_none _)

namespace Decimal

theorem isDigit_of_mem_toDigits {digits : Nat} : ∀ c ∈ Nat.toDigits 10 digits, c.isDigit :=
  fun _ => Nat.isDigit_of_mem_toDigits (by decide) (by decide)

/-- The decimal is its digits before and after the point, with the point where the power of
ten puts it. -/
theorem decimal_eq {n : Numeral} {d : Decimal}
    (hdigits : Nat.ofDigitChars 10 (n.whole ++ n.fraction.getD []) 0 = d.digits)
    (hexponent : (n.exponent.map Exponent.value).getD 0 =
      d.exponent + (n.fraction.getD []).length) :
    n.decimal = d := by
  rw [Numeral.decimal, hdigits, hexponent, Int.add_sub_cancel]

theorem isDigit_replicate (zeros : Nat) : ∀ c ∈ List.replicate zeros '0', c.isDigit := by
  intro c hc
  rw [List.eq_of_mem_replicate hc]
  rfl

section Positional
variable {d : Decimal} {ds : List Char} (hdigit : ∀ c ∈ ds, c.isDigit)
  (hvalue : Nat.ofDigitChars 10 ds 0 = d.digits)
include hdigit hvalue

/-- Zeros are written up to a point that is after all digits. -/
theorem shows_zeros {zeros : Nat} (hne : ds ≠ []) (hexponent : d.exponent = zeros) :
    Numeral.Shows ⟨none, ds ++ List.replicate zeros '0', none, none⟩ d
      (ds ++ List.replicate zeros '0') where
  formed := Numeral.formed_unsigned (List.forall_mem_append.2 ⟨hdigit, isDigit_replicate _⟩)
    (List.forall_mem_nil _) (List.append_ne_nil_of_left_ne_nil hne _)
  sign := rfl
  text := by simp [Numeral.text]
  value := by
    have hdigits : Nat.ofDigitChars 10 (ds ++ List.replicate zeros '0') 0 =
        10 ^ zeros * d.digits := by
      rw [Nat.ofDigitChars_append, hvalue, Nat.ofDigitChars_replicate_zero]
    simp only [toRat, Numeral.decimal, hexponent, Option.getD_none, List.append_nil,
      Option.map_none, List.length_nil, hdigits]
    push_cast
    simp [mul_comm]

/-- The point is among the digits. -/
theorem shows_point {places : Nat} (hexponent : d.exponent = -places)
    (hplaces : places < ds.length) :
    Numeral.Shows ⟨none, ds.take (ds.length - places), some (ds.drop (ds.length - places)), none⟩ d
      (ds.take (ds.length - places) ++ '.' :: ds.drop (ds.length - places)) where
  formed := by
    refine Numeral.formed_unsigned (fun c hc => hdigit c (List.mem_of_mem_take hc))
      (fun c hc => hdigit c (List.mem_of_mem_drop hc)) ?_
    rw [← List.length_pos_iff, List.length_take]
    omega
  sign := rfl
  text := by simp [Numeral.text]
  value := by
    refine congrArg toRat (decimal_eq ?_ ?_)
    · rwa [Option.getD_some, List.take_append_drop]
    · rw [Option.getD_some, List.length_drop, Option.map_none, Option.getD_none]
      omega

/-- Zeros are written from a point that is before all digits. -/
theorem shows_fraction {places : Nat} (hexponent : d.exponent = -places)
    (hplaces : ds.length ≤ places) :
    Numeral.Shows ⟨none, ['0'], some (List.replicate (places - ds.length) '0' ++ ds), none⟩ d
      ('0' :: '.' :: (List.replicate (places - ds.length) '0' ++ ds)) where
  formed := Numeral.formed_unsigned (isDigit_replicate 1)
    (List.forall_mem_append.2 ⟨isDigit_replicate _, hdigit⟩) (List.cons_ne_nil _ _)
  sign := rfl
  text := by simp [Numeral.text]
  value := by
    refine congrArg toRat (decimal_eq ?_ ?_)
    · rw [Option.getD_some, ← List.append_assoc, Nat.ofDigitChars_append, Nat.ofDigitChars_append,
        Nat.ofDigitChars_replicate_zero]
      exact hvalue
    · rw [Option.getD_some, List.length_append, List.length_replicate, Option.map_none,
        Option.getD_none]
      omega

end Positional

/-- A decimal that is written out is a numeral without a power of ten. -/
theorem exists_positional (d : Decimal) :
    ∃ n : Numeral, n.Shows d d.positional ∧ n.exponent = none := by
  have hdigit : ∀ c ∈ Nat.toDigits 10 d.digits, c.isDigit := isDigit_of_mem_toDigits
  have hne : Nat.toDigits 10 d.digits ≠ [] := Nat.toDigits_ne_nil
  have hvalue : Nat.ofDigitChars 10 (Nat.toDigits 10 d.digits) 0 = d.digits :=
    Nat.ofDigitChars_ten_toDigits
  rw [positional]
  split
  · rename_i hplaces
    exact ⟨_, shows_zeros hdigit hvalue hne (by omega), rfl⟩
  · rename_i hplaces
    split
    · rename_i hlength
      exact ⟨_, shows_point hdigit hvalue (by omega) hlength, rfl⟩
    · rename_i hlength
      exact ⟨_, shows_fraction hdigit hvalue (by omega) (Nat.le_of_not_lt hlength), rfl⟩

/-- The power of ten that a decimal is written with. -/
def power (n : Int) : Exponent :=
  ⟨'e', some (if n < 0 then .minus else .plus), Nat.toDigits 10 n.natAbs⟩

theorem formed_power (n : Int) : (power n).Formed :=
  ⟨.inl rfl, isDigit_of_mem_toDigits, Nat.toDigits_ne_nil⟩

theorem text_power (n : Int) :
    (power n).text = 'e' :: (if n < 0 then '-' else '+') :: Nat.toDigits 10 n.natAbs := by
  rw [power, Exponent.text]
  split <;> rfl

/-- The power of ten that is written is read back. -/
theorem value_power (n : Int) : (power n).value = n := by
  simp only [power, Exponent.value, Nat.ofDigitChars_ten_toDigits]
  split <;> rename_i hsign
  · rw [if_pos rfl]
    omega
  · rw [if_neg (by decide)]
    omega

/-- A decimal that is written with one digit before the point is a numeral. -/
theorem exists_scientific (d : Decimal) : ∃ n : Numeral, n.Shows d d.scientific := by
  have hdigit : ∀ c ∈ Nat.toDigits 10 d.digits, c.isDigit := isDigit_of_mem_toDigits
  have hne : Nat.toDigits 10 d.digits ≠ [] := Nat.toDigits_ne_nil
  have hvalue : Nat.ofDigitChars 10 (Nat.toDigits 10 d.digits) 0 = d.digits :=
    Nat.ofDigitChars_ten_toDigits
  simp only [scientific]
  generalize Nat.toDigits 10 d.digits = ds at *
  have hlength := List.length_pos_iff.2 hne
  have hfraction : (if ds.length = 1 then none else some (ds.drop 1)).getD [] = ds.drop 1 := by
    split
    · rename_i hone
      exact (List.drop_eq_nil_of_le (Nat.le_of_eq hone)).symm
    · rfl
  refine ⟨⟨none, ds.take 1, if ds.length = 1 then none else some (ds.drop 1),
    some (power (d.exponent + ds.length - 1))⟩, ⟨?_, ?_, .inl ?_, ?_⟩, rfl, ?_, ?_⟩
  · exact fun c hc => hdigit c (List.mem_of_mem_take hc)
  · rw [hfraction]
    exact fun c hc => hdigit c (List.mem_of_mem_drop hc)
  · rw [← List.length_pos_iff, List.length_take]
    omega
  · rintro _ ⟨⟩
    exact formed_power _
  · simp only [Numeral.text, Option.map_some, Option.getD_some, text_power]
    split <;> rfl
  · refine congrArg toRat (decimal_eq ?_ ?_)
    · rwa [hfraction, List.take_append_drop]
    · rw [hfraction, List.length_drop, Option.map_some, Option.getD_some, value_power]
      omega

end Decimal
/-! ### Numbers -/

/-- The numeral with a minus, if it is to have one. -/
def Numeral.signed (n : Numeral) (negative : Bool) : Numeral :=
  { n with sign := if negative then some .minus else none }

theorem Numeral.text_signed {n : Numeral} (h : n.sign = none) (negative : Bool) :
    (n.signed negative).text = (if negative then ['-'] else []) ++ n.text := by
  cases negative <;> simp [signed, text, h, Sign.char]

theorem Numeral.value_signed (n : Numeral) (negative : Bool) :
    (n.signed negative).value = Binary64.ofCode negative n.decimal.nearest := by
  cases negative <;> rfl

namespace Style
variable (s : Style) {v : Float}

/-- A number is written with a minus if it is negative, unless it is zero and the style leaves
the sign of zero out. -/
def signs (v : Float) : Bool := isNegative v && (s.signsZero || code v != 0)

theorem write_of_isNaN (h : v.isNaN) : s.write v = "NaN" :=
  if_pos (Binary64.isNaN_iff.1 h)

theorem write_of_isInf (h : v.isInf) :
    s.write v = String.ofList ((if isNegative v then ['-'] else []) ++ s.infinity.toList) := by
  have hcode := Binary64.isInf_iff.1 h
  simp only [write, if_neg (Nat.not_lt_of_ge hcode.le), if_pos hcode]

/-- A finite number is a magnitude with or without a minus. -/
theorem write_of_isFinite (h : v.isFinite) :
    s.write v = String.ofList ((if s.signs v then ['-'] else []) ++
      if code v = 0 then ['0'] else s.magnitude (code v)) := by
  have hfinite := Binary64.isFinite_iff.1 h
  simp only [write, if_neg hfinite.asymm, if_neg hfinite.ne]
  by_cases hzero : code v = 0
  · cases hsign : s.signsZero <;> simp [signs, hzero, hsign]
  · simp [signs, hzero]

/-- A magnitude is written as a numeral that is read back as it. -/
theorem exists_magnitude {c : Nat} (h : c ≤ Binary64.infinity) :
    ∃ n : Numeral, n.Formed ∧ n.sign = none ∧
      n.text = (if c = 0 then ['0'] else s.magnitude c) ∧ n.decimal.nearest = c ∧
      (c = 0 ∨ s.positional (Binary64.ofCode false c) → n.exponent = none) := by
  split
  · rename_i hzero
    refine ⟨⟨none, ['0'], none, none⟩, Numeral.formed_unsigned (List.forall_mem_singleton.2 rfl)
      (List.forall_mem_nil _) (List.cons_ne_nil _ _), rfl, rfl, ?_, fun _ => rfl⟩
    have hvalue : Decimal.toRat ⟨0, 0⟩ = Binary64.magnitude c := by
      rw [hzero, Binary64.magnitude_zero, Decimal.toRat, Nat.cast_zero, zero_mul]
    exact (Decimal.isNearest_nearest ⟨0, 0⟩).unique (hvalue ▸ Binary64.isNearest_magnitude h)
  · rename_i hzero
    rw [magnitude]
    split
    · obtain ⟨n, hn, hexponent⟩ := (Decimal.shortest c).exists_positional
      refine ⟨n, hn.formed, hn.sign, hn.text, ?_, fun _ => hexponent⟩
      rw [Decimal.nearest_eq_of_toRat_eq hn.value, Decimal.nearest_shortest h]
    · rename_i hplain
      obtain ⟨n, hn⟩ := (Decimal.shortest c).exists_scientific
      refine ⟨n, hn.formed, hn.sign, hn.text, ?_, fun hpositional => ?_⟩
      · rw [Decimal.nearest_eq_of_toRat_eq hn.value, Decimal.nearest_shortest h]
      · exact absurd hpositional (not_or.2 ⟨hzero, hplain⟩)

/-- **A finite number is written as a numeral that is read back as it**, but for the sign of
zero where the style leaves that out. -/
theorem exists_numeral (h : v.isFinite) :
    ∃ n : Numeral, n.Formed ∧ n.text = (s.write v).toList ∧
      n.value = Binary64.ofCode (s.signs v) (code v) := by
  have hfinite := Binary64.isFinite_iff.1 h
  obtain ⟨n, hn, hsign, htext, hnearest, -⟩ := s.exists_magnitude hfinite.le
  refine ⟨n.signed (s.signs v), ⟨hn.whole, hn.fraction, hn.digits, hn.exponent⟩, ?_, ?_⟩
  · rw [Numeral.text_signed hsign, htext, write_of_isFinite s h, String.toList_ofList]
  · rw [Numeral.value_signed, hnearest]

/-- No number is written with white space if infinity is not. -/
theorem isMark_write (hinfinity : ∀ c ∈ s.infinity.toList, Numeral.IsMark c) (v : Float) :
    ∀ c ∈ (s.write v).toList, Numeral.IsMark c := by
  rcases Binary64.isNaN_or_isInf_or_isFinite v with hnan | hinf | hfinite
  · rw [write_of_isNaN s hnan]
    exact Numeral.isMark_of_all (by decide)
  · rw [write_of_isInf s hinf, String.toList_ofList, List.forall_mem_append]
    refine ⟨?_, hinfinity⟩
    split <;> exact Numeral.isMark_of_all (by decide)
  · obtain ⟨n, hn, htext, -⟩ := s.exists_numeral hfinite
    rw [← htext]
    exact fun _ => hn.isMark

end Style
end Reckoner
