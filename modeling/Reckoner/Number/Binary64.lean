/-! Magnitudes of binary64 numbers as natural numbers.

The low 63 bits of a binary64 number are the *code* of its magnitude. Codes are
ordered as the magnitudes are, and every magnitude is a whole number of *units*
of 2⁻¹⁰⁷⁴, so that rounding is arithmetic on natural numbers: `nearest` takes a
quotient of units to the code of the nearest magnitude, a tie to the even code,
and what lies half a step or more above the largest number to `infinity`. Powers
are written `Nat.pow`, which is one function wherever a proof opens the definition;
`^` is the power that happens to be in scope. -/
namespace Reckoner.Binary64

/-- The code of infinity. The codes below it are the numbers, those above it
stand for no number. -/
def infinity : Nat := 2047 * Nat.pow 2 52

/-- The magnitude 1, in units of 2⁻¹⁰⁷⁴. -/
@[irreducible] def one : Nat := Nat.pow 2 1074

/-- The magnitude of a code, in units of 2⁻¹⁰⁷⁴. -/
def units (code : Nat) : Nat :=
  let step := Nat.pow 2 52
  if code < step then code else (step + code % step) * Nat.pow 2 (code / step - 1)

/-- The whole number nearest to a quotient, a tie to the even one. -/
def roundHalfEven (num den : Nat) : Nat :=
  let floor := num / den
  match compare (2 * (num % den)) den with
  | .lt => floor
  | .eq => floor + floor % 2
  | .gt => floor + 1

/-- The code of the magnitude nearest to `num / den` units. A quotient of more
than 53 bits is rounded to a multiple of a power of two that leaves it 53; a
carry out of the last of them reaches the next power by itself. -/
def nearest (num den : Nat) : Nat :=
  let shift := (num / den).log2 - 52
  min (shift * Nat.pow 2 52 + roundHalfEven num (den * Nat.pow 2 shift)) infinity

/-- The code of a number's magnitude. -/
def code (v : Float) : Nat := v.toBits.toNat % Nat.pow 2 63

/-- The number's sign bit. -/
def isNegative (v : Float) : Bool := Nat.pow 2 63 ≤ v.toBits.toNat

/-- The number with a sign bit and a magnitude's code. -/
def ofCode (negative : Bool) (code : Nat) : Float :=
  Float.ofBits (UInt64.ofNat (if negative then Nat.pow 2 63 + code else code))

def nan : Float := ofCode false (infinity + Nat.pow 2 51)

theorem nearest_le_infinity (num den : Nat) : nearest num den ≤ infinity := Nat.min_le_right _ _

end Reckoner.Binary64
