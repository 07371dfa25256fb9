import Reckoner.Proofs.Boundary
import Reckoner.Proofs.Encoding
import Reckoner.Proofs.Numerals

/-! The number that a text is read as.

`Reads` says it of a text that does not begin with white space: infinity if the text begins
with its word, else the number nearest to the longest numeral the text begins with, else no
number. The magnitude of a numeral is that of its digits on both sides of the point, times
its power of ten (`Numeral.magnitude`), and the sign is kept where the nearest number is zero.

`readNumber_reads`: this is how every text is read once its white space is skipped. What
follows the numeral changes nothing, and up to where a text is cut every character is one
byte, so that it may be cut by counting them. -/
namespace Reckoner
open Binary64 (IsNearest code isNegative isInf_iff isNaN_iff)

/-! ### Values of numerals -/

namespace Numeral

/-- The power of ten that a numeral's end writes, one over it behind a minus. -/
def scale : Option Exponent → ℚ
  | none => 1
  | some ⟨_, some .minus, digits⟩ => 1 / 10 ^ Nat.ofDigitChars 10 digits 0
  | some ⟨_, _, digits⟩ => 10 ^ Nat.ofDigitChars 10 digits 0

/-- The digits on both sides of the point, times the power of ten. -/
def magnitude (n : Numeral) : ℚ :=
  (Nat.ofDigitChars 10 n.whole 0 +
      Nat.ofDigitChars 10 (n.fraction.getD []) 0 / 10 ^ (n.fraction.getD []).length) *
    scale n.exponent

theorem zpow_exponent (e : Option Exponent) :
    (10 : ℚ) ^ (e.map Exponent.value).getD 0 = scale e := by
  match e with
  | none => exact zpow_zero _
  | some ⟨_, none, digits⟩ => exact zpow_natCast _ _
  | some ⟨_, some .plus, digits⟩ => exact zpow_natCast _ _
  | some ⟨_, some .minus, digits⟩ =>
    show (10 : ℚ) ^ (-(Nat.ofDigitChars 10 digits 0 : Int)) = 1 / 10 ^ Nat.ofDigitChars 10 digits 0
    rw [zpow_neg, zpow_natCast, one_div]

theorem toRat_decimal (n : Numeral) : n.decimal.toRat = n.magnitude := by
  have hten : (10 : ℚ) ≠ 0 := by norm_num
  rw [Decimal.toRat, decimal, magnitude, Nat.ofDigitChars_append,
    Nat.ofDigitChars_eq_ofDigitChars_zero, zpow_sub₀ hten, zpow_natCast, zpow_exponent]
  push_cast
  field_simp

/-- A numeral is read as the number nearest to its magnitude. -/
theorem isNearest_value (n : Numeral) : IsNearest n.magnitude (code n.value) := by
  have hnearest := Decimal.isNearest_nearest n.decimal
  rw [toRat_decimal] at hnearest
  rwa [value, Binary64.code_ofCode _ hnearest.le_infinity]

theorem isNegative_value (n : Numeral) : isNegative n.value = decide (n.sign = some .minus) :=
  Binary64.isNegative_ofCode _ (Binary64.nearest_le_infinity ..)

/-- The text begins with the word, and with no longer one of the language. -/
structure LongestPrefix (w text : List Char) : Prop where
  mem : w ∈ language
  starts : w <+: text
  longest : ∀ other ∈ language, other <+: text → other.length ≤ w.length

end Numeral

/-! ### Readings -/

/-- The text begins with the word for infinity, after the sign. -/
def BeginsInfinite (sign : Option Sign) (text : List Char) : Prop :=
  (sign.map Sign.char).toList ++ "Infinity".toList <+: text

theorem beginsInfinite_iff {sign : Option Sign} {text : List Char} :
    BeginsInfinite sign text ↔
      (Sign.ofText text).1 = sign ∧ "Infinity".toList <+: (Sign.ofText text).2 := by
  constructor
  · rintro ⟨rest, rfl⟩
    have hsign : Sign.ofText ((sign.map Sign.char).toList ++ ("Infinity".toList ++ rest)) =
        (sign, "Infinity".toList ++ rest) := by
      refine Sign.ofText_append sign fun c hc => ?_
      obtain rfl : 'I' = c := Option.some.inj hc
      decide
    rw [List.append_assoc, hsign]
    exact ⟨rfl, List.prefix_append _ _⟩
  · rintro ⟨rfl, rest, hrest⟩
    have htext := Sign.text_ofText text
    rw [← hrest, ← List.append_assoc] at htext
    exact ⟨rest, htext⟩

/-- What a text without white space before it is read as. -/
inductive Reads (text : List Char) (v : Float) : Prop where
  | infinity (sign : Option Sign) : BeginsInfinite sign text → v.isInf →
    isNegative v = decide (sign = some .minus) → Reads text v
  | numeral (n : Numeral) : (∀ sign, ¬ BeginsInfinite sign text) → n.Formed →
    Numeral.LongestPrefix n.text text → isNegative v = decide (n.sign = some .minus) →
    IsNearest n.magnitude (code v) → Reads text v
  | notANumber : (∀ sign, ¬ BeginsInfinite sign text) →
    (∀ w ∈ Numeral.language, ¬ w <+: text) → v.isNaN → Reads text v

theorem Numeral.longestPrefix_text_iff {n : Numeral} (hn : n.Formed) {text : List Char} :
    LongestPrefix n.text text ↔ ∃ rest, ofText text = some (n, rest) := by
  simp only [ofText_eq_some_iff]
  constructor
  · rintro ⟨-, ⟨rest, hrest⟩, hlongest⟩
    exact ⟨rest, hn, hrest, hlongest⟩
  · rintro ⟨rest, -, hrest, hlongest⟩
    exact ⟨mem_language_iff.2 ⟨n, hn, rfl⟩, ⟨rest, hrest⟩, hlongest⟩

/-- A text is read as one number. -/
theorem Reads.unique {text : List Char} {v w : Float} (hv : Reads text v) (hw : Reads text w) :
    v = w := by
  cases hv with
  | infinity sign hbegins hinf hneg =>
    cases hw with
    | infinity sign' hbegins' hinf' hneg' =>
      obtain rfl : sign = sign' :=
        (beginsInfinite_iff.1 hbegins).1.symm.trans (beginsInfinite_iff.1 hbegins').1
      exact Binary64.eq_of_isNegative_eq_of_code_eq (hneg.trans hneg'.symm)
        ((isInf_iff.1 hinf).trans (isInf_iff.1 hinf').symm)
    | numeral _ hnone => exact absurd hbegins (hnone sign)
    | notANumber hnone => exact absurd hbegins (hnone sign)
  | numeral n hnone hn hlongest hneg hnearest =>
    cases hw with
    | infinity sign hbegins => exact absurd hbegins (hnone sign)
    | numeral m _ hm hlongest' hneg' hnearest' =>
      obtain ⟨rest, hread⟩ := (Numeral.longestPrefix_text_iff hn).1 hlongest
      obtain ⟨rest', hread'⟩ := (Numeral.longestPrefix_text_iff hm).1 hlongest'
      obtain rfl : n = m := congrArg Prod.fst (Option.some.inj (hread.symm.trans hread'))
      exact Binary64.eq_of_isNegative_eq_of_code_eq (hneg.trans hneg'.symm)
        (hnearest.unique hnearest')
    | notANumber _ hempty => exact absurd hlongest.starts (hempty _ hlongest.mem)
  | notANumber hnone hempty hnan =>
    cases hw with
    | infinity sign hbegins => exact absurd hbegins (hnone sign)
    | numeral _ _ _ hlongest => exact absurd hlongest.starts (hempty _ hlongest.mem)
    | notANumber _ _ hnan' => exact Binary64.eq_of_isNaN hnan hnan'

/-- What the text without its white space is read as is what the text is read as. -/
theorem reads_readNumber (text : String) :
    Reads (Text.dropBlanks text.toList) (readNumber text) := by
  rw [readNumber]
  generalize Text.dropBlanks text.toList = body
  dsimp only
  split
  · rename_i hinfinity
    refine .infinity (Sign.ofText body).1
      (beginsInfinite_iff.2 ⟨rfl, List.isPrefixOf_iff_prefix.1 hinfinity⟩) ?_ ?_
    · exact isInf_iff.2 (Binary64.code_ofCode _ (Nat.le_refl _))
    · exact Binary64.isNegative_ofCode _ (Nat.le_refl _)
  · rename_i hinfinity
    have hnone : ∀ sign, ¬ BeginsInfinite sign body := fun sign hbegins =>
      hinfinity (List.isPrefixOf_iff_prefix.2 (beginsInfinite_iff.1 hbegins).2)
    split
    · rename_i hread
      exact .notANumber hnone (Numeral.ofText_eq_none_iff.1 hread) Binary64.isNaN_nan
    · rename_i n rest hread
      have hn := Numeral.Formed.of_ofText hread
      exact .numeral n hnone hn ((Numeral.longestPrefix_text_iff hn).2 ⟨rest, hread⟩)
        n.isNegative_value n.isNearest_value

/-- No text begins with a numeral and with infinity. -/
theorem Numeral.Formed.not_beginsInfinite {n : Numeral} (h : n.Formed) {text : List Char}
    (hstarts : n.text <+: text) (sign : Option Sign) : ¬ BeginsInfinite sign text := by
  intro hbegins
  obtain ⟨rest, rfl⟩ := hstarts
  obtain ⟨-, tail, htail⟩ := beginsInfinite_iff.1 hbegins
  rw [h.ofText_sign] at htail
  dsimp only at htail
  have hhead := h.head ((n.exponent.map Exponent.text).getD [] ++ rest) 'I' (htail ▸ rfl)
  exact absurd hhead (by decide)

theorem readNumber_eq_value {text : String} {n : Numeral} (hn : n.Formed)
    (hlongest : Numeral.LongestPrefix n.text (Text.dropBlanks text.toList)) :
    readNumber text = n.value :=
  (reads_readNumber text).unique (.numeral n (hn.not_beginsInfinite hlongest.starts) hn hlongest
    n.isNegative_value n.isNearest_value)

/-! ### Where a text is cut -/

theorem Numeral.Formed.dropBlanks_text {n : Numeral} (h : n.Formed) :
    Text.dropBlanks n.text = n.text := by
  cases htext : n.text with
  | nil => rfl
  | cons c cs =>
    have hmark := h.isMark (c := c) (htext ▸ List.mem_cons_self)
    have hblank := Text.not_isBlank_of_ascii hmark.1 (hmark.2.trans (by decide))
    rw [Text.dropBlanks, List.dropWhile_cons, hblank, if_neg Bool.false_ne_true]

/-- A numeral by itself is read as its value. -/
theorem Numeral.Formed.readNumber_text {n : Numeral} (h : n.Formed) :
    readNumber (String.ofList n.text) = n.value := by
  refine readNumber_eq_value h ?_
  rw [String.toList_ofList, h.dropBlanks_text]
  exact (longestPrefix_text_iff h).2 ⟨[], h.ofText_text⟩

/-- ASCII characters have as many bytes as characters. -/
theorem utf8ByteSize_ofList {w : List Char} (h : ∀ c ∈ w, Numeral.IsMark c) :
    (String.ofList w).utf8ByteSize = w.length := by
  induction w with
  | nil => rfl
  | cons c w ih =>
    rw [List.forall_mem_cons] at h
    have hsize : c.utf8Size = 1 := by
      refine Char.utf8Size_eq_one_iff.2 (UInt32.le_iff_toNat_le.2 ?_)
      exact Nat.le_of_lt_succ h.1.2
    rw [String.ofList_cons, String.utf8ByteSize_append, String.utf8ByteSize_singleton, hsize,
      ih h.2, List.length_cons, Nat.add_comm]

/-- No character is cut after a sign or a numeral. -/
theorem isValid_length {w text : List Char} (hstarts : w <+: text)
    (hw : w ∈ Numeral.signs ∨ w ∈ Numeral.language) :
    String.Pos.Raw.IsValid (String.ofList text) ⟨w.length⟩ := by
  have hmark : ∀ c ∈ w, Numeral.IsMark c := by
    rcases hw with hw | hw
    · obtain ⟨sign, rfl⟩ := Numeral.mem_signs.1 hw
      exact fun _ => Numeral.isMark_sign
    · obtain ⟨n, hn, rfl⟩ := Numeral.mem_language_iff.1 hw
      exact fun _ => hn.isMark
  refine String.Pos.Raw.isValid_ofList.2 ⟨w.length, ?_⟩
  rw [← List.prefix_iff_eq_take.1 hstarts, utf8ByteSize_ofList hmark]

/-- **A text is read as its longest numeral**: as the number nearest to that, as infinity
before any numeral, and as no number if there is neither. What is read of the numeral alone
is the same, and the text is cut between characters. -/
theorem readNumber_reads (text : String) :
    (∀ v, readNumber text = v ↔ Reads (Text.dropBlanks text.toList) v) ∧
    (∀ w, Numeral.LongestPrefix w (Text.dropBlanks text.toList) →
      (readNumber text).isNaN = false ∧ readNumber (String.ofList w) = readNumber text) ∧
    ∀ w, w <+: Text.dropBlanks text.toList → w ∈ Numeral.signs ∨ w ∈ Numeral.language →
      String.Pos.Raw.IsValid (String.ofList (Text.dropBlanks text.toList)) ⟨w.length⟩ := by
  refine ⟨fun v => ⟨?_, (reads_readNumber text).unique⟩, fun w hlongest => ?_,
    fun w hstarts hw => isValid_length hstarts hw⟩
  · rintro rfl
    exact reads_readNumber text
  · obtain ⟨n, hn, rfl⟩ := Numeral.mem_language_iff.1 hlongest.mem
    have hnan : n.value.isNaN = false :=
      Bool.eq_false_iff.2 (mt isNaN_iff.1 (Nat.not_lt_of_le n.isNearest_value.le_infinity))
    rw [hn.readNumber_text, readNumber_eq_value hn hlongest]
    exact ⟨hnan, rfl⟩

/-- After a no-break space, and before a letter without a power. -/
theorem readNumber_reads_letter :
    Numeral.LongestPrefix "-12.5e+3".toList
        (Text.dropBlanks "\u00a0-12.5e+3e+é".toList) ∧
      Reads (Text.dropBlanks "\u00a0-12.5e+3e+é".toList) (-12500) ∧
      (readNumber "\u00a0-12.5e+3e+é").isNaN = false ∧
      readNumber "-12.5e+3" = readNumber "\u00a0-12.5e+3e+é" ∧
      String.Pos.Raw.IsValid (String.ofList (Text.dropBlanks "\u00a0-12.5e+3e+é".toList)) ⟨8⟩ := by
  have hread : Numeral.ofText (Text.dropBlanks "\u00a0-12.5e+3e+é".toList) =
      some (⟨some .minus, ['1', '2'], some ['5'], some ⟨'e', some .plus, ['3']⟩⟩,
        "e+é".toList) := by decide
  have hlongest := (Numeral.longestPrefix_text_iff (.of_ofText hread)).2 ⟨_, hread⟩
  obtain ⟨hreads, hsame, hvalid⟩ := readNumber_reads "\u00a0-12.5e+3e+é"
  have hvalue : readNumber "\u00a0-12.5e+3e+é" = -12500 := by decide +kernel
  obtain ⟨hnan, halone⟩ := hsame _ hlongest
  exact ⟨hlongest, (hreads _).1 hvalue, hnan, halone, hvalid _ hlongest.starts (.inr hlongest.mem)⟩

end Reckoner
