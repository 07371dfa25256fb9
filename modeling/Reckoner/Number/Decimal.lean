import Reckoner.Number.Binary64

/-! Decimals and the magnitudes they denote.

A decimal is a whole number of powers of ten. `Decimal.nearest` is the code of
the binary64 magnitude nearest to it, `Decimal.shortest` the decimal that writes
a magnitude: of the decimals that read back one with the fewest digits, and of
those the nearest, a tie to the larger. `nearest_of_neighbour?`: what the search
for it finds reads back. -/
namespace Reckoner

/-- The number `digits * 10 ^ exponent`. -/
structure Decimal where
  digits : Nat
  exponent : Int
deriving DecidableEq, Repr

namespace Decimal
open Binary64 (units)

/-- The code of the magnitude nearest to the decimal. Powers of ten beyond what
can matter are cut: 10³¹⁰ is above every magnitude, and digits below `2 ^ (n + 1)`
over `10 ^ (n + 400)` are nearest to zero. -/
def nearest (d : Decimal) : Nat :=
  Binary64.nearest (d.digits * Nat.pow 10 (min d.exponent.toNat 310) * Binary64.one)
    (Nat.pow 10 (min (-d.exponent).toNat (d.digits.log2 + 400)))

/-! ### The shortest decimal

In units of 10⁻¹⁰⁷⁴ every magnitude is a whole number, since a unit of 2⁻¹⁰⁷⁴ is
5¹⁰⁷⁴ of them. The grid of step 10^(j - 1074) has two neighbours of it, and a
decimal of few digits lies on a grid of large step. -/

/-- A unit of 2⁻¹⁰⁷⁴, in units of 10⁻¹⁰⁷⁴. -/
@[irreducible] def fine : Nat := Nat.pow 5 1074

/-- The magnitude of a code, in units of 10⁻¹⁰⁷⁴. -/
def exact (code : Nat) : Nat := units code * fine

/-- `digits` steps of the grid whose step is `10 ^ j` units of 10⁻¹⁰⁷⁴. -/
def onGrid (digits j : Nat) : Decimal := ⟨digits, j - 1074⟩

/-- The neighbour on a grid that reads back as the code, the nearer one where
both do, the upper one where they are equally near. -/
def neighbour? (code j : Nat) : Option Decimal :=
  let step := Nat.pow 10 j
  let below := onGrid (exact code / step) j
  let above := onGrid (exact code / step + 1) j
  if below.nearest = code then
    if above.nearest = code ∧ step ≤ 2 * (exact code % step) then some above else some below
  else if above.nearest = code then some above
  else none

/-- The first decimal that reads back, on the grids from index `j` down to the
finest, on which the magnitude lies. -/
def search (code : Nat) : Nat → Decimal
  | 0 => onGrid (exact code) 0
  | j + 1 => (neighbour? code (j + 1)).getD (search code j)

/-- The decimal that writes the magnitude of a code. The search starts at a grid
whose step is above the magnitude. -/
def shortest (code : Nat) : Decimal :=
  search code ((exact code).log2 / 3 + 1)

/-- A decimal found on a grid reads back. -/
theorem nearest_of_neighbour? {code j : Nat} {d : Decimal} (h : neighbour? code j = some d) :
    d.nearest = code := by
  simp only [neighbour?] at h
  split at h
  · rename_i hbelow
    split at h
    · rename_i habove
      exact Option.some.inj h ▸ habove.1
    · exact Option.some.inj h ▸ hbelow
  · split at h
    · rename_i habove
      exact Option.some.inj h ▸ habove
    · cases h

end Decimal
end Reckoner
