import Reckoner.Formula
import Reckoner.Proofs.Conversion
import Reckoner.Proofs.Evaluation

/-! Which texts have a value.

A text is evaluated by its postfix form alone. So a text has a value exactly if its
postfix form is that of a formula of the grammar in which every function has as many
arguments as it takes and every variable is bound, and then it has that formula's
value: `evaluate_eq_ok_iff`. The tokens of the text itself need not be a formula:
an operator may stand after both its operands, as in `2 3 +`, and a function take
operands from outside of its parentheses, as in `8 log(2)` (`evaluate_not_infix`). -/
namespace Reckoner.Formula
open Postfix (nesting)

/-- **A text has a value exactly if its postfix form is that of a formula** whose
functions have as many arguments as they take and whose variables are bound; the
value is the formula's. Parentheses match then, and commas stand inside of them. -/
theorem evaluate_eq_ok_iff (text : String) (b : Bindings) (v : Float) :
    (evaluate text b = .ok v ↔ ∃ tokens formula t, Token.ofText text = .ok tokens ∧
      Infix .sum formula t ∧ t.Saturated ∧
      Postfix.ofTokens tokens = Postfix.ofTokens formula ∧ t.BoundIn b ∧ t.value b = v) ∧
    (evaluate text b = .ok v →
      ∃ tokens, Token.ofText text = .ok tokens ∧ nesting 0 tokens = .ok 0) := by
  rw [evaluate_eq_ok_iff_stages]
  refine ⟨⟨?_, ?_⟩, ?_⟩
  · rintro ⟨tokens, sequence, htokens, hsequence, hvalue⟩
    obtain ⟨t, rfl, hdefined, hv⟩ := Postfix.value_eq_ok_iff.1 hvalue
    obtain ⟨formula, hformula⟩ := t.exists_tokens
    have hpostorder := (Postfix.converts_phrase (hformula.lift .sum)).1.ofTokens
    exact ⟨tokens, formula, t, htokens, hformula.lift .sum, hdefined.saturated,
      hsequence.trans hpostorder.symm, hdefined.bound, hv⟩
  · rintro ⟨tokens, formula, t, htokens, hformula, hsaturated, hsame, hbound, hv⟩
    have hpostorder := (Postfix.converts_phrase hformula).1.ofTokens
    exact ⟨tokens, t.postorder, htokens, hsame.trans hpostorder,
      Postfix.value_eq_ok_iff.2 ⟨t, rfl, ⟨hsaturated, hbound⟩, hv⟩⟩
  · rintro ⟨tokens, sequence, htokens, hsequence, -⟩
    exact ⟨tokens, htokens, Postfix.ofTokens_isOk_iff.1 ⟨sequence, hsequence⟩⟩

/-- The postfix form of `2 3 +` is that of `2 + 3`. -/
theorem evaluate_eq_ok_iff_operator_last :
    evaluate "2 3 +" .empty = .ok 5 ∧
      (∃ tokens formula t, Token.ofText "2 3 +" = .ok tokens ∧ Infix .sum formula t ∧
        t.Saturated ∧ Postfix.ofTokens tokens = Postfix.ofTokens formula ∧
        t.BoundIn .empty ∧ t.value .empty = 5) ∧
      ∃ tokens, Token.ofText "2 3 +" = .ok tokens ∧ nesting 0 tokens = .ok 0 := by
  obtain ⟨hformula, hnesting⟩ := evaluate_eq_ok_iff "2 3 +" .empty 5
  have hvalue : evaluate "2 3 +" .empty = .ok 5 := by decide +kernel
  exact ⟨hvalue, hformula.1 hvalue, hnesting hvalue⟩

/-- `2 3 +` and `(2, 3) +` have the value 5 and `8 log(2)` that of `log(8, 2)`, but the
tokens are no formulas: an operator stands last, a comma outside of a call, and an operand
before the function that takes it. -/
theorem evaluate_not_infix :
    (evaluate "2 3 +" .empty = .ok 5 ∧
      ∃ tokens, Token.ofText "2 3 +" = .ok tokens ∧ ∀ t, ¬ Infix .sum tokens t) ∧
    (evaluate "(2, 3) +" .empty = .ok 5 ∧
      ∃ tokens, Token.ofText "(2, 3) +" = .ok tokens ∧ ∀ t, ¬ Infix .sum tokens t) ∧
    (evaluate "8 log(2)" .empty = .ok ((8 : Float).log / (2 : Float).log) ∧
      ∃ tokens, Token.ofText "8 log(2)" = .ok tokens ∧ ∀ t, ¬ Infix .sum tokens t) := by
  refine ⟨⟨by decide +kernel, _, rfl, fun t h => ?last⟩,
    ⟨by decide +kernel, _, rfl, fun t h => ?comma⟩, ?value, _, rfl, fun t h => ?call⟩
  case last | comma =>
    obtain ⟨last, hlast, hne⟩ := h.getLast?_ne_operator
    cases hlast
    exact hne .add rfl
  case value =>
    have height : readNumber "8" = 8 := by decide +kernel
    have htwo : readNumber "2" = 2 := by decide +kernel
    rw [← height, ← htwo]
    rfl
  case call =>
    obtain ⟨o, hoperator⟩ := h.operator_after_number rfl _ rfl
    cases hoperator

end Reckoner.Formula
