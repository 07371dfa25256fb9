import Reckoner.Reading
import Reckoner.Value

/-! Formulas, as texts.

A formula is compiled to postfix order, which does not need its variables'
values, and evaluated under bindings. What is shown of it is an `Outcome`: a
request to enter one while the text is blank, a plain refusal whatever went
wrong, or the value. -/
namespace Reckoner

inductive Outcome where
  /-- There is no formula yet. -/
  | blank
  | failure
  | value (v : Float)
deriving DecidableEq

namespace Outcome

def text : Outcome → String
  | blank => "Enter a formula to see the result."
  | failure => "Invalid formula"
  | value v => Style.result.write v

/-- What is shown of an evaluation. -/
def ofResult : Except FormulaError Float → Outcome
  | .ok v => value v
  | .error _ => failure

end Outcome

namespace Formula

def compile (text : String) : Except FormulaError Postfix := do
  Postfix.ofTokens (← Token.ofText text)

def evaluate (text : String) (b : Bindings) : Except FormulaError Float := do
  (← compile text).value b

def outcome (text : String) (b : Bindings) : Outcome :=
  if Text.allBlank text then .blank else .ofResult (evaluate text b)

def display (text : String) (b : Bindings) : String := (outcome text b).text

/-- The names of the variables a formula reads, each where it first appears. -/
def freeVariables (text : String) : Except FormulaError (List String) := do
  return ((← Token.ofText text).filterMap Token.variableName?).eraseDups

/-! ### Stages -/

/-- A text that has a value is evaluated in three stages. -/
theorem evaluate_eq_ok_iff_stages {text : String} {b : Bindings} {v : Float} :
    evaluate text b = .ok v ↔ ∃ tokens sequence, Token.ofText text = .ok tokens ∧
      Postfix.ofTokens tokens = .ok sequence ∧ sequence.value b = .ok v := by
  simp only [evaluate, compile, bind_assoc, Except.bind_eq_ok_iff, exists_and_left]

/-- A text that has no value fails in one of the stages. -/
theorem evaluate_eq_error_iff_stages {text : String} {b : Bindings} {e : FormulaError} :
    evaluate text b = .error e ↔ Token.ofText text = .error e ∨
      ∃ tokens, Token.ofText text = .ok tokens ∧ (Postfix.ofTokens tokens = .error e ∨
        ∃ sequence, Postfix.ofTokens tokens = .ok sequence ∧ sequence.value b = .error e) := by
  simp only [evaluate, compile, bind_assoc, Except.bind_eq_error_iff]

end Formula
end Reckoner
