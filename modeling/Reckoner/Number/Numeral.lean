import Reckoner.Text.Blank
import Reckoner.Number.Decimal

/-! Numerals, and the numbers that texts hold.

A numeral is an optional sign, digits with at most one point, and an optional
power of ten: `7.`, `-.5`, `1.5e3`. `Numeral.ofText` takes the longest numeral a
text begins with, and `readNumber` reads a text as a number: white space is
skipped, what follows the numeral is ignored, `Infinity` is read too, and a text
with neither is not a number. `text_ofText`: a numeral and what is left of the
text are the text. -/
namespace Reckoner

inductive Sign where
  | plus
  | minus
deriving DecidableEq, Repr

namespace Sign

def char : Sign → Char
  | plus => '+'
  | minus => '-'

/-- The sign a text begins with, and the text after it. -/
def ofText : List Char → Option Sign × List Char
  | '+' :: rest => (some plus, rest)
  | '-' :: rest => (some minus, rest)
  | rest => (none, rest)

end Sign

/-- The power of ten at a numeral's end. -/
structure Exponent where
  /-- `e` or `E`. -/
  letter : Char
  sign : Option Sign
  digits : List Char
deriving DecidableEq, Repr

namespace Exponent

def text (e : Exponent) : List Char :=
  e.letter :: ((e.sign.map Sign.char).toList ++ e.digits)

def value (e : Exponent) : Int :=
  let magnitude : Int := Nat.ofDigitChars 10 e.digits 0
  if e.sign = some .minus then -magnitude else magnitude

/-- The exponent a text begins with. A letter without digits after it, signed or
not, begins none. -/
def ofText : List Char → Option Exponent × List Char
  | [] => (none, [])
  | letter :: rest =>
    let (sign, body) := Sign.ofText rest
    let digits := body.takeWhile Char.isDigit
    if (letter = 'e' ∨ letter = 'E') ∧ digits ≠ [] then
      (some ⟨letter, sign, digits⟩, body.dropWhile Char.isDigit)
    else (none, letter :: rest)

end Exponent

structure Numeral where
  sign : Option Sign
  whole : List Char
  /-- The digits after the point, when there is a point. -/
  fraction : Option (List Char)
  exponent : Option Exponent
deriving DecidableEq, Repr

namespace Numeral

def text (n : Numeral) : List Char :=
  (n.sign.map Sign.char).toList ++ n.whole ++ (n.fraction.map ('.' :: ·)).getD [] ++
    (n.exponent.map Exponent.text).getD []

/-- The magnitude the numeral writes: its digits as one whole number, the point
moved by the power of ten. -/
def decimal (n : Numeral) : Decimal where
  digits := Nat.ofDigitChars 10 (n.whole ++ n.fraction.getD []) 0
  exponent := ((n.exponent.map Exponent.value).getD 0) - (n.fraction.getD []).length

/-- The nearest binary64 number. The sign of a zero is kept. -/
def value (n : Numeral) : Float :=
  Binary64.ofCode (n.sign = some .minus) n.decimal.nearest

/-- The point and the digits after it. -/
def takeFraction : List Char → Option (List Char) × List Char
  | '.' :: rest => (some (rest.takeWhile Char.isDigit), rest.dropWhile Char.isDigit)
  | rest => (none, rest)

/-- The longest numeral a text begins with, and the text after it. -/
def ofText (text : List Char) : Option (Numeral × List Char) :=
  let (sign, body) := Sign.ofText text
  let whole := body.takeWhile Char.isDigit
  let (fraction, tail) := takeFraction (body.dropWhile Char.isDigit)
  if whole = [] ∧ fraction.getD [] = [] then none
  else
    let (exponent, rest) := Exponent.ofText tail
    some (⟨sign, whole, fraction, exponent⟩, rest)

end Numeral

/-- The number a text begins with, after white space. -/
def readNumber (text : String) : Float :=
  let body := Text.dropBlanks text.toList
  let (sign, unsigned) := Sign.ofText body
  if "Infinity".toList.isPrefixOf unsigned then
    Binary64.ofCode (sign = some .minus) Binary64.infinity
  else
    match Numeral.ofText body with
    | none => Binary64.nan
    | some (numeral, _) => numeral.value

/-! ### Nothing of the text is lost -/

theorem Sign.text_ofText (text : List Char) :
    ((Sign.ofText text).1.map Sign.char).toList ++ (Sign.ofText text).2 = text := by
  unfold Sign.ofText
  split <;> rfl

theorem Exponent.text_ofText (text : List Char) :
    ((Exponent.ofText text).1.map Exponent.text).getD [] ++ (Exponent.ofText text).2 = text := by
  cases text with
  | nil => rfl
  | cons letter rest =>
    have hsign := Sign.text_ofText rest
    simp only [Exponent.ofText]
    split
    · simp only [Option.map_some, Option.getD_some, Exponent.text, List.cons_append,
        List.append_assoc, List.takeWhile_append_dropWhile, hsign]
    · rfl

theorem Numeral.text_takeFraction (text : List Char) :
    ((Numeral.takeFraction text).1.map ('.' :: ·)).getD [] ++ (Numeral.takeFraction text).2 =
      text := by
  unfold Numeral.takeFraction
  split
  · simp
  · rfl

/-- A numeral and what is left of the text are the text. -/
theorem Numeral.text_ofText {text rest : List Char} {n : Numeral}
    (h : Numeral.ofText text = some (n, rest)) : n.text ++ rest = text := by
  have hsign := Sign.text_ofText text
  have hfraction := Numeral.text_takeFraction ((Sign.ofText text).2.dropWhile Char.isDigit)
  have hexponent := Exponent.text_ofText
    (Numeral.takeFraction ((Sign.ofText text).2.dropWhile Char.isDigit)).2
  simp only [Numeral.ofText] at h
  split at h
  · cases h
  · cases h
    simp only [Numeral.text, List.append_assoc, hexponent, hfraction,
      List.takeWhile_append_dropWhile, hsign]

end Reckoner
