/-! White space.

White space sets the parts of a formula apart, and a text of nothing else is
blank. The set is the Unicode property `White_Space`: twenty-five characters in
ten ranges, among them the no-break spaces and the line separators, but not the
zero-width ones. -/
namespace Reckoner.Text

/-- The first and last code points of the ranges with the property `White_Space`. -/
def blankRanges : List (Nat × Nat) :=
  [(0x09, 0x0D), (0x20, 0x20), (0x85, 0x85), (0xA0, 0xA0), (0x1680, 0x1680), (0x2000, 0x200A),
    (0x2028, 0x2029), (0x202F, 0x202F), (0x205F, 0x205F), (0x3000, 0x3000)]

def isBlank (c : Char) : Bool :=
  blankRanges.any fun range => range.1 ≤ c.toNat && c.toNat ≤ range.2

/-- The text has no character but white space. -/
def allBlank (text : String) : Bool :=
  text.toList.all isBlank

/-- The text from its first character that is not white space. -/
def dropBlanks (text : List Char) : List Char :=
  text.dropWhile isBlank

example : (blankRanges.map fun range => range.2 + 1 - range.1).sum = 25 := by decide
example : isBlank '\u00a0' ∧ isBlank '\u2028' ∧ ¬ isBlank '\u200b' ∧ ¬ isBlank '\u001c' := by decide

end Reckoner.Text
