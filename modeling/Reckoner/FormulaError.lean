/-! What can be wrong with a formula, and how it is said. -/
namespace Reckoner

inductive FormulaError where
  /-- The character belongs to no formula. -/
  | invalidCharacter (c : Char)
  /-- A parenthesis has no partner. -/
  | mismatchedParentheses
  /-- A comma stands outside of all parentheses. -/
  | misplacedSeparator
  /-- The formula does not come to exactly one value. -/
  | leftoverValues (count : Nat)
  | undefinedVariable (name : String)
  /-- The operator or function takes another number of operands than there are. -/
  | operandCount (symbol : String) (expected found : Nat)
  /-- The symbol is not that of an operator. -/
  | notAnOperator (symbol : String)
deriving DecidableEq, Repr

def FormulaError.message : FormulaError → String
  | invalidCharacter c => s!"Invalid character '{c}' in expression"
  | mismatchedParentheses => "Mismatched parentheses"
  | misplacedSeparator => "Argument separator outside of a function call"
  | leftoverValues count => s!"Invalid expression: {count} values left on the stack"
  | undefinedVariable name => s!"Variable '{name}' is not defined"
  | operandCount symbol expected found =>
    s!"Not enough operands for '{symbol}': expected {expected}, got {found}"
  | notAnOperator symbol => s!"Unknown operator or function '{symbol}'"

end Reckoner
