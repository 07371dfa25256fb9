import Reckoner.Elementary
import Reckoner.Symbol
import Reckoner.Number.Style

/-! Tokens, the smallest parts of a formula that mean something.

A variable and a function may carry a power, written onto the name as in `x^2`
or `sin^2`: it applies to the variable's value or the call's result before
anything else does. `Token.text` is how a token is written. -/
namespace Reckoner

inductive Token where
  | number (value : Float)
  | var (name : String) (power : Option Float)
  | call (f : Elementary) (power : Option Float)
  | symbol (s : Symbol)
deriving DecidableEq

namespace Token

abbrev operator (o : Operator) : Token := .symbol (.operator o)

/-- The token a name stands for: a function's, if it is one's whole name. -/
def ofName (name : String) (power : Option Float) : Token :=
  match Elementary.ofName? name with
  | some f => .call f power
  | none => .var name power

/-- A name with the power it carries. -/
def named (name : String) : Option Float → String
  | none => name
  | some power => name ++ "^" ++ Style.result.write power

def text : Token → String
  | number v => Style.result.write v
  | var name power => named name power
  | call f power => named f.name power
  | symbol s => s.text

/-- Tokens in a row, one blank between them. -/
def texts (tokens : List Token) : String :=
  " ".intercalate (tokens.map text)

/-- The variable a token reads. -/
def variableName? : Token → Option String
  | var name _ => some name
  | _ => none

end Token

/-- A value under the power that a name carries. -/
def raise (v : Float) : Option Float → Float
  | none => v
  | some power => v.pow power

end Reckoner
