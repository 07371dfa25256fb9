import Reckoner.Number.Decimal

/-! How numbers are written.

Every number is written with the fewest digits that read back
(`Decimal.shortest`). A `Style` says what is left to choose: the word for
infinity, whether a negative zero keeps its sign, and which magnitudes are
written out positionally, the others with one digit before the point and a
signed power of ten. `Style.result` is how results and tokens are shown,
`Style.plain` how records give them. -/
namespace Reckoner

namespace Decimal

/-- The decimal written out, with zeros up to the point where its digits do not
reach it. -/
def positional (d : Decimal) : List Char :=
  let digits := Nat.toDigits 10 d.digits
  let places := (-d.exponent).toNat
  if places = 0 then digits ++ List.replicate d.exponent.toNat '0'
  else if places < digits.length then
    digits.take (digits.length - places) ++ '.' :: digits.drop (digits.length - places)
  else '0' :: '.' :: (List.replicate (places - digits.length) '0' ++ digits)

/-- The decimal with one digit before the point and a power of ten. -/
def scientific (d : Decimal) : List Char :=
  let digits := Nat.toDigits 10 d.digits
  let power := d.exponent + digits.length - 1
  digits.take 1 ++ (if digits.length = 1 then [] else '.' :: digits.drop 1) ++
    'e' :: (if power < 0 then '-' else '+') :: Nat.toDigits 10 power.natAbs

end Decimal

structure Style where
  infinity : String
  /-- A negative zero is written with its sign. -/
  signsZero : Bool
  /-- The magnitudes that are written positionally. -/
  positional : Float → Bool

namespace Style

/-- Results are written positionally from 10⁻⁶ up to 10²¹, and zero has no sign. -/
def result : Style where
  infinity := "Infinity"
  signsZero := false
  positional := fun magnitude => 1e-6 ≤ magnitude && magnitude < 1e21

/-- Records write every number positionally, and zero with its sign. -/
def plain : Style where
  infinity := "inf"
  signsZero := true
  positional := fun _ => true

/-- The text of a magnitude that is a positive number. -/
def magnitude (s : Style) (code : Nat) : List Char :=
  let d := Decimal.shortest code
  if s.positional (Binary64.ofCode false code) then d.positional else d.scientific

def write (s : Style) (v : Float) : String :=
  let code := Binary64.code v
  let sign := if Binary64.isNegative v then ['-'] else []
  if Binary64.infinity < code then "NaN"
  else if code = Binary64.infinity then String.ofList (sign ++ s.infinity.toList)
  else if code = 0 then String.ofList (if s.signsZero then sign ++ ['0'] else ['0'])
  else String.ofList (sign ++ s.magnitude code)

end Style

example : String.ofList (Decimal.positional ⟨125, -2⟩) = "1.25" := by decide
example : String.ofList (Decimal.positional ⟨125, -5⟩) = "0.00125" := by decide
example : String.ofList (Decimal.positional ⟨125, 2⟩) = "12500" := by decide
example : String.ofList (Decimal.scientific ⟨15, -8⟩) = "1.5e-7" := by decide
example : String.ofList (Decimal.scientific ⟨1, 21⟩) = "1e+21" := by decide

end Reckoner
