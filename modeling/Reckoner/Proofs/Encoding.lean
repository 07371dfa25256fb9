import Reckoner.Proofs.Rounding

/-! Binary64 numbers by sign bit and code.

A number's word is its sign bit and the code of its magnitude. `ofCode_code`,
`code_ofCode`, `isNegative_ofCode`: nothing else is in a number, and up to infinity every
sign bit and every code is a number's. The codes below infinity's are those of finite
numbers, the ones above it stand for no number (`isFinite_iff`, `isInf_iff`, `isNaN_iff`).

`unpacked_unpack`: a number that is unpacked to be compared is a sign and the magnitude of
its code, so that what compares as a number between positive ones has a code between
zero's and infinity's. -/
namespace Reckoner.Binary64
open Float.Model (Format UnpackedFloat)
open Float.Model.UnpackedFloat

/-! ### Words and their parts -/

theorem toNat_packComponents (sign : UnpackedFloat.Sign) (exponent : BitVec 11)
    (fraction : BitVec 52) :
    (packComponents Format.binary64 sign exponent fraction).toNat =
      sign.toBitVec.toNat * 2 ^ 63 + exponent.toNat * 2 ^ 52 + fraction.toNat := by
  have he := exponent.isLt
  have hf := fraction.isLt
  show (sign.toBitVec ++ exponent ++ fraction).toNat = _
  rw [BitVec.toNat_append, BitVec.toNat_append, ← Nat.shiftLeft_add_eq_or_of_lt hf,
    ← Nat.shiftLeft_add_eq_or_of_lt he, Nat.shiftLeft_eq, Nat.shiftLeft_eq]
  omega

theorem toNat_unpackMantissa (b : BitVec 64) :
    (@unpackMantissa Format.binary64 b).toNat = b.toNat % Nat.pow 2 63 % Nat.pow 2 52 := by
  show ((b.extractLsb 51 0).cast _).toNat = _
  rw [BitVec.toNat_cast, BitVec.extractLsb_toNat, Nat.shiftRight_zero]
  exact (Nat.mod_mod_of_dvd _ (by decide)).symm

theorem toNat_unpackExponent (b : BitVec 64) :
    (@unpackExponent Format.binary64 b).toNat = b.toNat % Nat.pow 2 63 / Nat.pow 2 52 := by
  have hsign : Nat.pow 2 63 = 9223372036854775808 := rfl
  have hstep : Nat.pow 2 52 = 4503599627370496 := rfl
  show ((b.extractLsb 62 52).cast _).toNat = _
  rw [BitVec.toNat_cast, BitVec.extractLsb_toNat, Nat.shiftRight_eq_div_pow, hsign, hstep]
  omega

theorem toNat_unpackSign (b : BitVec 64) :
    (@unpackSign Format.binary64 b).toNat = b.toNat / 2 ^ 63 := by
  have hb := b.isLt
  show ((b.extractLsb 63 63).cast _).toNat = _
  rw [BitVec.toNat_cast, BitVec.extractLsb_toNat, Nat.shiftRight_eq_div_pow]
  omega

/-- A fraction with the bit before its point. -/
theorem toNat_significand (fraction : BitVec 52) :
    (1#1 ++ fraction).toNat = 2 ^ 52 + fraction.toNat := by
  rw [BitVec.toNat_append, ← Nat.shiftLeft_add_eq_or_of_lt fraction.isLt]
  rfl

theorem toBitVec_ofBitVec (b : BitVec 1) : (UnpackedFloat.Sign.ofBitVec b).toBitVec = b := by
  revert b
  decide

/-- A word is put together from its three parts. -/
theorem packComponents_unpack (b : BitVec 64) :
    packComponents Format.binary64 (UnpackedFloat.Sign.ofBitVec (@unpackSign Format.binary64 b))
      (unpackExponent b) (unpackMantissa b) = b := by
  apply BitVec.eq_of_toNat_eq
  have hb := b.isLt
  have hsign : Nat.pow 2 63 = 9223372036854775808 := rfl
  have hstep : Nat.pow 2 52 = 4503599627370496 := rfl
  rw [toNat_packComponents, toBitVec_ofBitVec, toNat_unpackSign, toNat_unpackExponent,
    toNat_unpackMantissa, hsign, hstep]
  omega

theorem pack_subnormal {sign : Sign} {mantissa : Nat} {exponent : Int} (hpos : 0 < mantissa)
    {fraction : BitVec 52} (hmantissa : mantissa = fraction.toNat) (hexponent : exponent = -1074) :
    pack Format.binary64 (.finite sign mantissa exponent hpos) =
      packComponents Format.binary64 sign 0#11 fraction := by
  subst hmantissa hexponent
  have hlog : fraction.toNat.log2 < 52 := (Nat.log2_lt (Nat.ne_of_gt hpos)).2 fraction.isLt
  have hbits : ¬ fraction.toNat.log2 + 1 = Format.binary64.mantissaBits := by
    show ¬ fraction.toNat.log2 + 1 = 53
    omega
  delta pack
  dsimp only
  rw [if_neg (by decide), if_neg hbits]
  congr 1
  exact BitVec.ofNat_toNat 52 fraction

theorem pack_normal {sign : Sign} {mantissa : Nat} {exponent : Int} (hpos : 0 < mantissa)
    {biased : BitVec 11} {fraction : BitVec 52} (hlast : biased ≠ -1#11)
    (hmantissa : mantissa = 2 ^ 52 + fraction.toNat) (hexponent : exponent = biased.toNat - 1075) :
    pack Format.binary64 (.finite sign mantissa exponent hpos) =
      packComponents Format.binary64 sign biased fraction := by
  subst hmantissa hexponent
  have hfraction := fraction.isLt
  have hbiased := biased.isLt
  have hbiased' : biased.toNat ≠ 2047 := fun h => hlast (BitVec.eq_of_toNat_eq h)
  have hlog : (2 ^ 52 + fraction.toNat).log2 = 52 :=
    (Nat.log2_eq_iff (Nat.ne_of_gt hpos)).2 ⟨by omega, by omega⟩
  have hexponent : ((biased.toNat - 1075 : Int) + Format.binary64.exponentBias +
      Format.binary64.mantissaBitsWithoutImplicit).toNat = biased.toNat := by
    show (biased.toNat - 1075 + 1023 + 52 : Int).toNat = _
    omega
  have hrange : ¬ 2 ^ Format.binary64.exponentBits ≤ biased.toNat + 1 := by
    show ¬ 2048 ≤ biased.toNat + 1
    omega
  have hbits : 52 + 1 = Format.binary64.mantissaBits := rfl
  delta pack
  dsimp only
  rw [hexponent, hlog, if_neg hrange, if_pos hbits]
  congr 1
  · exact BitVec.ofNat_toNat 11 biased
  · exact BitVec.eq_of_toNat_eq (by simp; omega)

section Unpack
variable {b : BitVec 64}

theorem unpack_infinity (hlast : @unpackExponent Format.binary64 b = -1#11)
    (hzero : @unpackMantissa Format.binary64 b = 0#52) :
    unpack Format.binary64 b = .infinity (.ofBitVec (@unpackSign Format.binary64 b)) :=
  (if_pos hlast).trans (if_pos hzero)

theorem unpack_notANumber (hlast : @unpackExponent Format.binary64 b = -1#11)
    (hzero : @unpackMantissa Format.binary64 b ≠ 0#52) :
    unpack Format.binary64 b = .notANumber :=
  (if_pos hlast).trans (if_neg hzero)

theorem unpack_zero (hfirst : @unpackExponent Format.binary64 b = 0#11)
    (hzero : @unpackMantissa Format.binary64 b = 0#52) :
    unpack Format.binary64 b = .zero (.ofBitVec (@unpackSign Format.binary64 b)) :=
  (if_neg (hfirst ▸ by decide)).trans ((if_pos hfirst).trans (dif_pos hzero))

theorem unpack_subnormal (hfirst : @unpackExponent Format.binary64 b = 0#11)
    (hzero : @unpackMantissa Format.binary64 b ≠ 0#52) :
    ∃ hpos, unpack Format.binary64 b = .finite (.ofBitVec (@unpackSign Format.binary64 b))
      (@unpackMantissa Format.binary64 b).toNat
      ((@unpackExponent Format.binary64 b).toNat - 1075 + 1) hpos :=
  ⟨_, (if_neg (hfirst ▸ by decide)).trans ((if_pos hfirst).trans (dif_neg hzero))⟩

theorem unpack_normal (hlast : @unpackExponent Format.binary64 b ≠ -1#11)
    (hfirst : @unpackExponent Format.binary64 b ≠ 0#11) :
    ∃ hpos, unpack Format.binary64 b = .finite (.ofBitVec (@unpackSign Format.binary64 b))
      (1#1 ++ @unpackMantissa Format.binary64 b).toNat
      ((@unpackExponent Format.binary64 b).toNat - 1075) hpos :=
  ⟨_, (if_neg hlast).trans (if_neg hfirst)⟩

/-- A word that is no superfluous NaN is packed as it was. -/
theorem pack_unpack (h : Format.binary64.Valid b) :
    pack Format.binary64 (unpack Format.binary64 b) = b := by
  have hparts := packComponents_unpack b
  by_cases hlast : @unpackExponent Format.binary64 b = -1#11
  · rw [hlast] at hparts
    by_cases hzero : @unpackMantissa Format.binary64 b = 0#52
    · rw [unpack_infinity hlast hzero]
      rwa [hzero] at hparts
    · rw [unpack_notANumber hlast hzero]
      exact (h.eq_packedNaN hlast hzero).symm
  by_cases hfirst : @unpackExponent Format.binary64 b = 0#11
  · by_cases hzero : @unpackMantissa Format.binary64 b = 0#52
    · rw [unpack_zero hfirst hzero]
      rwa [hfirst, hzero] at hparts
    · obtain ⟨hpos, hunpack⟩ := unpack_subnormal hfirst hzero
      rw [hfirst] at hparts hunpack
      rw [hunpack]
      exact (pack_subnormal _ rfl rfl).trans hparts
  · obtain ⟨hpos, hunpack⟩ := unpack_normal hlast hfirst
    rw [hunpack]
    exact (pack_normal _ hlast (toNat_significand _) rfl).trans hparts

end Unpack

/-! ### Numbers and words -/

theorem toBits_injective {v w : Float} (h : v.toBits = w.toBits) : v = w := by
  obtain ⟨⟨bits, _⟩⟩ := v
  obtain ⟨⟨bits', _⟩⟩ := w
  obtain rfl : bits = bits' := h
  rfl

theorem toBits_ofBits_of_valid {bits : UInt64} (h : Format.binary64.Valid bits.toBitVec) :
    (Float.ofBits bits).toBits = bits := by
  show UInt64.ofBitVec (pack Format.binary64 (unpack Format.binary64 bits.toBitVec)) = bits
  rw [pack_unpack h]

theorem ofBits_toBits (v : Float) : Float.ofBits v.toBits = v :=
  toBits_injective (toBits_ofBits_of_valid v.toModel.valid)

/-- Nothing is lost when a number is unpacked. -/
theorem ofModel_pack_unpack (v : Float) : Float.ofModel (Float.Model.pack v.toModel.unpack) = v :=
  ofBits_toBits v

/-- A word up to infinity is a number's, or infinity's. -/
theorem toBits_ofBits {bits : UInt64} (h : bits.toNat % Nat.pow 2 63 ≤ infinity) :
    (Float.ofBits bits).toBits = bits := by
  refine toBits_ofBits_of_valid ⟨fun hlast hne => absurd (BitVec.eq_of_toNat_eq ?_) hne⟩
  have hinfinity : infinity = 2047 * 4503599627370496 := rfl
  have hstep : Nat.pow 2 52 = 4503599627370496 := rfl
  have hexponent := (toNat_unpackExponent bits.toBitVec).symm
  rw [hlast, hstep] at hexponent
  rw [toNat_unpackMantissa, hstep]
  change bits.toNat % Nat.pow 2 63 / _ = 2047 at hexponent
  show bits.toNat % Nat.pow 2 63 % _ = 0
  omega

/-! ### Sign and code -/

theorem ofCode_code (v : Float) : ofCode (isNegative v) (code v) = v := by
  have hword : (if isNegative v then Nat.pow 2 63 + code v else code v) = v.toBits.toNat := by
    have hlt := v.toBits.toNat_lt
    have hsign : Nat.pow 2 63 = 9223372036854775808 := rfl
    simp only [isNegative, code, decide_eq_true_eq, hsign]
    split <;> omega
  rw [ofCode, hword, UInt64.ofNat_toNat, ofBits_toBits]

theorem toNat_toBits_ofCode (negative : Bool) {c : Nat} (h : c ≤ infinity) :
    (ofCode negative c).toBits.toNat = if negative then Nat.pow 2 63 + c else c := by
  have hlt : c < Nat.pow 2 63 := Nat.lt_of_le_of_lt h (by decide)
  have hword : (if negative then Nat.pow 2 63 + c else c) < UInt64.size := by
    have hsize : Nat.pow 2 63 + Nat.pow 2 63 = UInt64.size := rfl
    split <;> omega
  have hcode : (if negative then Nat.pow 2 63 + c else c) % Nat.pow 2 63 ≤ infinity := by
    split
    · rwa [Nat.add_mod_left, Nat.mod_eq_of_lt hlt]
    · rwa [Nat.mod_eq_of_lt hlt]
  have hbits : (UInt64.ofNat (if negative then Nat.pow 2 63 + c else c)).toNat =
      if negative then Nat.pow 2 63 + c else c := UInt64.toNat_ofNat_of_lt hword
  rw [ofCode, toBits_ofBits (hbits.symm ▸ hcode), hbits]

theorem code_ofCode (negative : Bool) {c : Nat} (h : c ≤ infinity) :
    code (ofCode negative c) = c := by
  have hlt : c < Nat.pow 2 63 := Nat.lt_of_le_of_lt h (by decide)
  rw [code, toNat_toBits_ofCode negative h]
  cases negative
  · exact Nat.mod_eq_of_lt hlt
  · exact (Nat.add_mod_left ..).trans (Nat.mod_eq_of_lt hlt)

theorem isNegative_ofCode (negative : Bool) {c : Nat} (h : c ≤ infinity) :
    isNegative (ofCode negative c) = negative := by
  have hlt : c < Nat.pow 2 63 := Nat.lt_of_le_of_lt h (by decide)
  rw [isNegative, toNat_toBits_ofCode negative h]
  cases negative
  · exact decide_eq_false (Nat.not_le_of_lt hlt)
  · exact decide_eq_true (Nat.le_add_right ..)

/-- A number is settled by its sign bit and its code. -/
theorem eq_of_isNegative_eq_of_code_eq {v w : Float} (hsign : isNegative v = isNegative w)
    (hcode : code v = code w) : v = w := by
  rw [← ofCode_code v, hsign, hcode, ofCode_code]

/-! ### Unpacked numbers -/

/-- The magnitude of a code as significand and power of two. -/
theorem magnitude_add {shift m : Nat} (hlow : shift = 0 ∨ Nat.pow 2 52 ≤ m)
    (hhigh : m ≤ 2 * Nat.pow 2 52) :
    magnitude (shift * Nat.pow 2 52 + m) = m * 2 ^ ((shift : Int) - 1074) := by
  have hone : one = 2 ^ 1074 := by
    delta one
    decide +kernel
  have hpower : (2 : ℚ) ^ ((shift : Int) - 1074) = 2 ^ shift / one := by
    rw [hone, zpow_sub₀ two_ne_zero, zpow_natCast, Nat.cast_pow]
    rfl
  rw [magnitude, units_add hlow hhigh, hpower, ← mul_div_assoc, Nat.pow_eq]
  push_cast
  rfl

theorem magnitude_of_div_eq_zero {c : Nat} (h : c / 4503599627370496 = 0) :
    magnitude c = (c % 4503599627370496 : Nat) * 2 ^ (-1074 : Int) := by
  have hsplit : c = 0 * Nat.pow 2 52 + c % 4503599627370496 := by omega
  have hstep : Nat.pow 2 52 = 4503599627370496 := rfl
  have hmagnitude := @magnitude_add 0 (c % 4503599627370496) (.inl rfl) (by omega)
  rwa [← hsplit] at hmagnitude

theorem magnitude_of_div_ne_zero {c : Nat} (h : c / 4503599627370496 ≠ 0) :
    magnitude c = (2 ^ 52 + c % 4503599627370496 : Nat) *
      2 ^ ((c / 4503599627370496 : Nat) - 1075 : Int) := by
  have hstep : Nat.pow 2 52 = 4503599627370496 := rfl
  have hsplit : c = (c / 4503599627370496 - 1) * Nat.pow 2 52 +
      (2 ^ 52 + c % 4503599627370496) := by
    rw [hstep]
    omega
  have hpower : ((c / 4503599627370496 - 1 : Nat) : Int) - 1074 =
      (c / 4503599627370496 : Nat) - 1075 := by omega
  have hmagnitude := @magnitude_add (c / 4503599627370496 - 1)
    (2 ^ 52 + c % 4503599627370496) (.inr (by omega)) (by omega)
  rwa [← hsplit, hpower] at hmagnitude

/-- The sign of an unpacked number. -/
def sign (v : Float) : UnpackedFloat.Sign := if isNegative v then .negative else .positive

theorem ofBitVec_unpackSign (v : Float) :
    UnpackedFloat.Sign.ofBitVec (@unpackSign Format.binary64 v.toBits.toBitVec) = sign v := by
  have hword : v.toBits.toBitVec.toNat = v.toBits.toNat := rfl
  have hsign : Nat.pow 2 63 = 9223372036854775808 := rfl
  have hzero : @unpackSign Format.binary64 v.toBits.toBitVec = 0#1 ↔
      ¬ Nat.pow 2 63 ≤ v.toBits.toNat := by
    rw [← BitVec.toNat_inj, toNat_unpackSign, hword, hsign]
    show _ = 0 ↔ _
    omega
  rw [UnpackedFloat.Sign.ofBitVec, sign, isNegative]
  by_cases h : Nat.pow 2 63 ≤ v.toBits.toNat
  · rw [if_neg (mt hzero.1 (not_not_intro h)), if_pos (decide_eq_true h)]
  · rw [if_pos (hzero.2 h), if_neg (mt of_decide_eq_true h)]

/-- What a number is, by its sign bit and its code: a finite one is of its code's magnitude. -/
inductive Unpacked (v : Float) : UnpackedFloat → Prop where
  | notANumber : infinity < code v → Unpacked v .notANumber
  | infinity : code v = infinity → Unpacked v (.infinity (sign v))
  | zero : code v = 0 → Unpacked v (.zero (sign v))
  | finite {mantissa : Nat} {exponent : Int} (hpos : 0 < mantissa) :
    0 < code v → code v < infinity → magnitude (code v) = mantissa * 2 ^ exponent →
    Unpacked v (.finite (sign v) mantissa exponent hpos)

theorem unpackExponent_eq_iff {v : Float} {e : BitVec 11} {n : Nat} (he : e.toNat = n) :
    @unpackExponent Format.binary64 v.toBits.toBitVec = e ↔ code v / 4503599627370496 = n := by
  rw [← BitVec.toNat_inj, he, toNat_unpackExponent]
  rfl

theorem unpackMantissa_eq_zero_iff {v : Float} :
    @unpackMantissa Format.binary64 v.toBits.toBitVec = 0#52 ↔
      code v % 4503599627370496 = 0 := by
  rw [← BitVec.toNat_inj, toNat_unpackMantissa]
  rfl

theorem unpacked_unpack (v : Float) : Unpacked v v.toModel.unpack := by
  have hinfinity : infinity = 2047 * 4503599627370496 := rfl
  have hcode : code v < 9223372036854775808 := Nat.mod_lt _ (by decide)
  have hexponent : (@unpackExponent Format.binary64 v.toBits.toBitVec).toNat =
    code v / 4503599627370496 := toNat_unpackExponent _
  have hfraction : (@unpackMantissa Format.binary64 v.toBits.toBitVec).toNat =
    code v % 4503599627370496 := toNat_unpackMantissa _
  have hlast_iff := @unpackExponent_eq_iff v (-1#11) _ rfl
  have hfirst_iff := @unpackExponent_eq_iff v 0#11 _ rfl
  have hsign := ofBitVec_unpackSign v
  show Unpacked v (unpack Format.binary64 v.toBits.toBitVec)
  by_cases hlast : @unpackExponent Format.binary64 v.toBits.toBitVec = -1#11
  · have hcode_last : code v / 4503599627370496 = 2047 := hlast_iff.1 hlast
    by_cases hzero : @unpackMantissa Format.binary64 v.toBits.toBitVec = 0#52
    · rw [unpack_infinity hlast hzero, hsign]
      rw [unpackMantissa_eq_zero_iff] at hzero
      exact .infinity (by omega)
    · rw [unpack_notANumber hlast hzero]
      rw [unpackMantissa_eq_zero_iff] at hzero
      exact .notANumber (by omega)
  have hcode_last : code v / 4503599627370496 ≠ 2047 := mt hlast_iff.2 hlast
  by_cases hfirst : @unpackExponent Format.binary64 v.toBits.toBitVec = 0#11
  · have hcode_first : code v / 4503599627370496 = 0 := hfirst_iff.1 hfirst
    by_cases hzero : @unpackMantissa Format.binary64 v.toBits.toBitVec = 0#52
    · rw [unpack_zero hfirst hzero, hsign]
      rw [unpackMantissa_eq_zero_iff] at hzero
      exact .zero (by omega)
    · obtain ⟨hpos, hunpack⟩ := unpack_subnormal hfirst hzero
      rw [hunpack, hsign]
      rw [unpackMantissa_eq_zero_iff] at hzero
      refine .finite _ (by omega) (by omega) ?_
      rw [magnitude_of_div_eq_zero hcode_first, hexponent, hcode_first, hfraction]
      rfl
  · have hcode_first : code v / 4503599627370496 ≠ 0 := mt hfirst_iff.2 hfirst
    obtain ⟨hpos, hunpack⟩ := unpack_normal hlast hfirst
    rw [hunpack, hsign]
    refine .finite _ (by omega) (by omega) ?_
    rw [magnitude_of_div_ne_zero hcode_first, toNat_significand, hexponent, hfraction]

theorem classified_of_unpacked {v : Float} {u : UnpackedFloat} (h : Unpacked v u) :
    (u.isNaN ↔ infinity < code v) ∧ (u.isInf ↔ code v = infinity) ∧
      (u.isFinite ↔ code v < infinity) := by
  have hzero : 0 < infinity := by decide
  cases h with
  | notANumber h =>
    exact ⟨iff_of_true rfl h, iff_of_false Bool.false_ne_true (by omega),
      iff_of_false Bool.false_ne_true (by omega)⟩
  | infinity h =>
    exact ⟨iff_of_false Bool.false_ne_true (by omega), iff_of_true rfl h,
      iff_of_false Bool.false_ne_true (by omega)⟩
  | zero h =>
    exact ⟨iff_of_false Bool.false_ne_true (by omega), iff_of_false Bool.false_ne_true (by omega),
      iff_of_true rfl (by omega)⟩
  | finite _ _ h =>
    exact ⟨iff_of_false Bool.false_ne_true (by omega), iff_of_false Bool.false_ne_true (by omega),
      iff_of_true rfl h⟩

theorem isNaN_iff {v : Float} : v.isNaN ↔ infinity < code v :=
  (classified_of_unpacked (unpacked_unpack v)).1

theorem isInf_iff {v : Float} : v.isInf ↔ code v = infinity :=
  (classified_of_unpacked (unpacked_unpack v)).2.1

theorem isFinite_iff {v : Float} : v.isFinite ↔ code v < infinity :=
  (classified_of_unpacked (unpacked_unpack v)).2.2

theorem isNaN_or_isInf_or_isFinite (v : Float) : v.isNaN ∨ v.isInf ∨ v.isFinite := by
  rw [isNaN_iff, isInf_iff, isFinite_iff]
  omega

theorem isNaN_nan : nan.isNaN := by
  decide +kernel

theorem unpack_of_isNaN {v : Float} (h : v.isNaN) : v.toModel.unpack = .notANumber := by
  change v.toModel.unpack.isNaN = true at h
  cases hunpacked : v.toModel.unpack with
  | notANumber => rfl
  | _ =>
    rw [hunpacked] at h
    cases h

/-- There is one NaN. -/
theorem eq_of_isNaN {v w : Float} (hv : v.isNaN) (hw : w.isNaN) : v = w := by
  rw [← ofModel_pack_unpack v, unpack_of_isNaN hv, ← unpack_of_isNaN hw, ofModel_pack_unpack]

/-! ### Comparisons -/

/-- The two zeros are equal. -/
theorem beq_of_code_eq_zero {v w : Float} (hv : code v = 0) (hw : code w = 0) : v == w := by
  have hzero : 0 < infinity := by decide
  have hunpacked := unpacked_unpack v
  have hunpacked' := unpacked_unpack w
  show v.toModel.unpack.compare w.toModel.unpack == some .eq
  generalize v.toModel.unpack = u at hunpacked ⊢
  generalize w.toModel.unpack = u' at hunpacked' ⊢
  cases hunpacked <;> cases hunpacked' <;> first | rfl | omega

/-- Every number but NaN is equal to itself. -/
theorem beq_self_of_not_isNaN {v : Float} (h : v.isNaN = false) : v == v := by
  show v.toModel.unpack.compare v.toModel.unpack == some .eq
  change v.toModel.unpack.isNaN = false at h
  generalize v.toModel.unpack = u at h ⊢
  cases u with
  | notANumber => cases h
  | infinity s => cases s <;> rfl
  | zero s => rfl
  | finite s m e hpos =>
    have hcompare : (compare e e).then (compare m m) = .eq := by simp
    cases s with
    | positive => exact beq_iff_eq.2 (congrArg some hcompare)
    | negative => exact beq_iff_eq.2 (congrArg (fun o : Ordering => some o.swap) hcompare)

theorem sign_eq_positive_iff {v : Float} : sign v = .positive ↔ isNegative v = false := by
  cases h : isNegative v <;> simp [sign, h]

/-- What is at least a positive number is positive. -/
theorem pos_of_le {v w : Float} (hsign : isNegative w = false) (hpos : 0 < code w)
    (hfinite : code w < infinity) (h : w ≤ v) : isNegative v = false ∧ 0 < code v := by
  have hunpacked := unpacked_unpack v
  have hunpacked' := unpacked_unpack w
  replace h : w.toModel.unpack.le v.toModel.unpack := of_decide_eq_true h
  generalize v.toModel.unpack = u at hunpacked h
  generalize w.toModel.unpack = u' at hunpacked' h
  rw [← sign_eq_positive_iff] at hsign ⊢
  cases hunpacked' with
  | finite =>
    rw [hsign] at h
    cases hunpacked with
    | notANumber => cases h
    | zero => cases h
    | infinity hcode =>
      cases hv : sign v with
      | positive => exact ⟨rfl, by omega⟩
      | negative =>
        rw [hv] at h
        cases h
    | finite _ hcode =>
      cases hv : sign v with
      | positive => exact ⟨rfl, hcode⟩
      | negative =>
        rw [hv] at h
        cases h
  | _ => omega

/-- What is less than a finite number and not negative is finite. -/
theorem lt_infinity_of_lt {v w : Float} (hsign : isNegative v = false)
    (hfinite : code w < infinity) (h : v < w) : code v < infinity := by
  have hunpacked := unpacked_unpack v
  have hunpacked' := unpacked_unpack w
  replace h : v.toModel.unpack.lt w.toModel.unpack := of_decide_eq_true h
  generalize v.toModel.unpack = u at hunpacked h
  generalize w.toModel.unpack = u' at hunpacked' h
  rw [← sign_eq_positive_iff] at hsign
  cases hunpacked with
  | notANumber => cases h
  | zero => omega
  | finite => assumption
  | infinity =>
    rw [hsign] at h
    cases hunpacked' with
    | notANumber => omega
    | infinity => omega
    | zero => cases h
    | finite => cases h

/-- A number that is compared to be written positionally is positive and finite. -/
theorem bounds_of_between {v : Float} (hlow : (1e-6 : Float) ≤ v) (hhigh : v < (1e21 : Float)) :
    isNegative v = false ∧ 0 < code v ∧ code v < infinity := by
  obtain ⟨hsign, hpos⟩ := pos_of_le (by decide +kernel) (by decide +kernel) (by decide +kernel) hlow
  exact ⟨hsign, hpos, lt_infinity_of_lt hsign (by decide +kernel) hhigh⟩

end Reckoner.Binary64
