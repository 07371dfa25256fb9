import Reckoner.Lexeme

/-! Reading a text as tokens.

Every lexeme gives its token, white space gives none. A product may be written
by putting its factors side by side: a `*` is read after a number, a variable or
a function's name when the character right after it, without white space,
begins a factor. A function's own parenthesis begins its arguments and no
factor. -/
namespace Reckoner

namespace Lexeme

/-- A factor begins with the character right after the lexeme. -/
def multiplies (l : Lexeme) (next : Option Char) : Bool :=
  match next with
  | none => false
  | some c =>
    match l.token with
    | .number _ => c == '(' || c.isAlpha
    | .var _ _ => c == '(' || c.isAlphanum
    | .call _ _ => c.isAlphanum
    | .symbol _ => false

/-- The tokens of a lexeme, by the character right after it. -/
def tokens (l : Lexeme) (next : Option Char) : List Token :=
  l.token :: if l.multiplies next then [.operator .multiply] else []

end Lexeme

/-- The first character of pieces that follow each other. -/
def Piece.first? (pieces : List Piece) : Option Char :=
  pieces.head?.bind fun piece => piece.text.head?

namespace Token

/-- The tokens of pieces that follow each other. -/
def ofPieces : List Piece → List Token
  | [] => []
  | .blank _ :: rest => ofPieces rest
  | .lexeme l :: rest => l.tokens (Piece.first? rest) ++ ofPieces rest

/-- The tokens of a text. -/
def ofText (text : String) : Except FormulaError (List Token) :=
  (Piece.cut text.toList).map ofPieces

end Token
end Reckoner
