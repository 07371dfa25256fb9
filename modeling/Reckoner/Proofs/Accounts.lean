import Reckoner.Formula
import Reckoner.Proofs.Alphabet
import Reckoner.Proofs.Conservation
import Reckoner.Proofs.Nesting
import Reckoner.Proofs.Operands
import Reckoner.Proofs.Supply

/-! What a text's own tokens say about its evaluation.

How many values a formula leaves can be counted before it is put into postfix order:
every operand is one more, every operator and every function of two arguments one less
(`surplus`). A text that has a value has a surplus of one, and one that leaves another
number of values has that surplus. What lacks operands is an operator or a function of the
text, and no other symbol is ever evaluated (`evaluate_accounts`). -/
namespace Reckoner

namespace Token

def isOperator : Token → Bool
  | symbol (.operator _) => true
  | _ => false

/-- The token is a function of two arguments. -/
def isBinaryCall : Token → Bool
  | call f _ => f.arity == 2
  | _ => false

/-- The operands less the operators and the functions of two arguments. -/
def surplus (tokens : List Token) : Int :=
  tokens.countP isOperand - tokens.countP isOperator - tokens.countP isBinaryCall

/-- What a token adds to the surplus is what it adds to the values there are. -/
theorem surplus_cons (b : Bindings) (t : Token) (tokens : List Token) :
    surplus (t :: tokens) =
      (if t.isGrouping then 0 else (supply b).weight t) + surplus tokens := by
  simp only [surplus, List.countP_cons]
  cases t with
  | call f power =>
    cases f <;> simp [supply, demand, isGrouping, isOperand, isOperator, isBinaryCall,
      Elementary.arity]
    all_goals omega
  | symbol s =>
    cases s <;> simp [supply, demand, isGrouping, isOperand, isOperator, isBinaryCall]
    omega
  | _ =>
    simp [supply, demand, isGrouping, isOperand, isOperator, isBinaryCall]
    omega

/-- Tokens leave their surplus, and what groups them does not count. -/
theorem total_kept (b : Bindings) (tokens : List Token) :
    (supply b).total (kept tokens) = surplus tokens := by
  induction tokens with
  | nil => rfl
  | cons t rest ih =>
    rw [surplus_cons b, ← ih, kept, List.filter_cons]
    cases t.isGrouping
    · rfl
    · exact (Int.zero_add _).symm

end Token

namespace Postfix
open Token (supply kept surplus)

theorem total_ofTokens {tokens : List Token} {sequence : Postfix}
    (h : ofTokens tokens = .ok sequence) (b : Bindings) :
    (supply b).total sequence = surplus tokens := by
  rw [Tally.total_perm (ofTokens_perm h), Token.total_kept]

theorem mem_of_ofTokens {tokens : List Token} {sequence : Postfix}
    (h : ofTokens tokens = .ok sequence) {t : Token} (ht : t ∈ sequence) :
    t ∈ tokens ∧ t.isGrouping = false := by
  simpa [kept] using (ofTokens_perm h).mem_iff.1 ht

/-- Tokens that were put into postfix order all compute something. -/
theorem value_ne_notAnOperator {tokens : List Token} {sequence : Postfix}
    (h : ofTokens tokens = .ok sequence) (b : Bindings) (s : String) :
    sequence.value b ≠ .error (.notAnOperator s) := by
  intro hvalue
  rcases value_eq_error_iff.1 hvalue with hheight | ⟨count, -, -, he⟩
  · obtain ⟨t, ht, count, hoffence⟩ := (height_eq_error_iff.1 hheight).exists_mem
    have hkept := (mem_of_ofTokens h ht).2
    cases hoffence with
    | @grouping _ s _ hs =>
      cases s with
      | operator o => exact hs o rfl
      | _ => cases hkept
  · cases he

theorem surplus_of_leftover {tokens : List Token} {sequence : Postfix}
    (h : ofTokens tokens = .ok sequence) {b : Bindings} {count : Nat}
    (hvalue : sequence.value b = .error (.leftoverValues count)) :
    (count : Int) = surplus tokens ∧ count ≠ 1 := by
  rcases value_eq_error_iff.1 hvalue with hheight | ⟨_, hheight, hne, he⟩
  · obtain ⟨t, -, _, hoffence⟩ := (height_eq_error_iff.1 hheight).exists_mem
    cases hoffence
  · cases he
    exact ⟨(height_eq_ok_iff.1 hheight).2.trans (total_ofTokens h b), hne⟩

theorem surplus_of_value {tokens : List Token} {sequence : Postfix}
    (h : ofTokens tokens = .ok sequence) {b : Bindings} {v : Float}
    (hvalue : sequence.value b = .ok v) : surplus tokens = 1 := by
  obtain ⟨-, htotal⟩ := height_eq_ok_iff.1 (value_isOk_iff.1 ⟨v, hvalue⟩)
  rw [← total_ofTokens h b, ← htotal]
  rfl

/-- What lacks operands is an operator or a function. -/
theorem lacking_of_operandCount {tokens : List Token} {sequence : Postfix}
    (h : ofTokens tokens = .ok sequence) {b : Bindings} {symbol : String} {expected found : Nat}
    (hvalue : sequence.value b = .error (.operandCount symbol expected found)) :
    found < expected ∧
      ((∃ o, .operator o ∈ tokens ∧ symbol = (Symbol.operator o).text ∧ expected = 2) ∨
        ∃ f power, .call f power ∈ tokens ∧ symbol = f.name ∧ expected = f.arity) := by
  rcases value_eq_error_iff.1 hvalue with hheight | ⟨_, -, -, he⟩
  · obtain ⟨t, ht, count, hoffence⟩ := (height_eq_error_iff.1 hheight).exists_mem
    obtain ⟨hmem, hkept⟩ := mem_of_ofTokens h ht
    cases hoffence with
    | @call _ f power hfound => exact ⟨hfound, .inr ⟨f, power, hmem, rfl, rfl⟩⟩
    | @symbol _ s hfound =>
      cases s with
      | operator o => exact ⟨hfound, .inl ⟨o, hmem, rfl, rfl⟩⟩
      | _ => cases hkept
  · cases he

end Postfix

namespace Formula
open Token (surplus)

/-- An evaluation that fails for another reason than a character, a parenthesis or a comma
fails at the tokens in postfix order. -/
theorem exists_sequence_of_error {text : String} {b : Bindings} {e : FormulaError}
    (h : evaluate text b = .error e) (hcharacter : ∀ c, e ≠ .invalidCharacter c)
    (hseparator : e ≠ .misplacedSeparator) (hparentheses : e ≠ .mismatchedParentheses) :
    ∃ tokens sequence, Token.ofText text = .ok tokens ∧ Postfix.ofTokens tokens = .ok sequence ∧
      sequence.value b = .error e := by
  rcases evaluate_eq_error_iff_stages.1 h with htext | ⟨tokens, htokens, hconversion | hvalue⟩
  · obtain ⟨c, -, he⟩ := Token.ofText_eq_error_iff.1 htext
    exact absurd he (hcharacter c)
  · rcases Postfix.ofTokens_eq_error hconversion with he | he
    · exact absurd he hseparator
    · exact absurd he hparentheses
  · obtain ⟨sequence, hsequence, hvalue⟩ := hvalue
    exact ⟨tokens, sequence, htokens, hsequence, hvalue⟩

/-- **The tokens of a text account for its evaluation.** None of them is evaluated that
computes nothing. A text that has a value has a surplus of one; if values are left over,
they are as many as its surplus, and not one; and what lacks operands is one of its
operators or functions, which is said to take as many as it does and to have fewer. -/
theorem evaluate_accounts (text : String) (b : Bindings) :
    (∀ s, evaluate text b ≠ .error (.notAnOperator s)) ∧
    (∀ v, evaluate text b = .ok v → ∃ tokens, Token.ofText text = .ok tokens ∧
      surplus tokens = 1) ∧
    (∀ count, evaluate text b = .error (.leftoverValues count) →
      ∃ tokens, Token.ofText text = .ok tokens ∧ (count : Int) = surplus tokens ∧ count ≠ 1) ∧
    ∀ symbol expected found, evaluate text b = .error (.operandCount symbol expected found) →
      ∃ tokens, Token.ofText text = .ok tokens ∧ found < expected ∧
        ((∃ o, .operator o ∈ tokens ∧ symbol = (Symbol.operator o).text ∧ expected = 2) ∨
          ∃ f power, .call f power ∈ tokens ∧ symbol = f.name ∧ expected = f.arity) := by
  refine ⟨fun s h => ?_, fun v h => ?_, fun count h => ?_, fun symbol expected found h => ?_⟩
  · obtain ⟨tokens, sequence, -, hsequence, hvalue⟩ := exists_sequence_of_error h nofun nofun nofun
    exact Postfix.value_ne_notAnOperator hsequence b s hvalue
  · obtain ⟨tokens, sequence, htokens, hsequence, hvalue⟩ := evaluate_eq_ok_iff_stages.1 h
    exact ⟨tokens, htokens, Postfix.surplus_of_value hsequence hvalue⟩
  · obtain ⟨tokens, sequence, htokens, hsequence, hvalue⟩ :=
      exists_sequence_of_error h nofun nofun nofun
    exact ⟨tokens, htokens, Postfix.surplus_of_leftover hsequence hvalue⟩
  · obtain ⟨tokens, sequence, htokens, hsequence, hvalue⟩ :=
      exists_sequence_of_error h nofun nofun nofun
    exact ⟨tokens, htokens, Postfix.lacking_of_operandCount hsequence hvalue⟩

/-- `2x + 1` has a value, `2 3 4` leaves three of them, and the logarithm in `log(8) + 1` lacks
its base. -/
theorem evaluate_accounts_each :
    (evaluate "2x + 1" (.ofList [("x", "3")]) = .ok 7 ∧
      ∃ tokens, Token.ofText "2x + 1" = .ok tokens ∧ surplus tokens = 1) ∧
    (evaluate "2 3 4" .empty = .error (.leftoverValues 3) ∧
      ∃ tokens, Token.ofText "2 3 4" = .ok tokens ∧ (3 : Nat) = surplus tokens ∧ 3 ≠ 1) ∧
    evaluate "log(8) + 1" .empty = .error (.operandCount "log" 2 1) ∧
      ∃ tokens, Token.ofText "log(8) + 1" = .ok tokens ∧ 1 < 2 ∧
        ((∃ o, .operator o ∈ tokens ∧ "log" = (Symbol.operator o).text ∧ 2 = 2) ∨
          ∃ f power, .call f power ∈ tokens ∧ "log" = f.name ∧ 2 = f.arity) := by
  have hvalue : evaluate "2x + 1" (.ofList [("x", "3")]) = .ok 7 := by decide +kernel
  have hleft : evaluate "2 3 4" .empty = .error (.leftoverValues 3) := by decide +kernel
  have hlacks : evaluate "log(8) + 1" .empty = .error (.operandCount "log" 2 1) := by decide +kernel
  obtain ⟨-, hone, -, -⟩ := evaluate_accounts "2x + 1" (.ofList [("x", "3")])
  obtain ⟨-, -, hleftover, -⟩ := evaluate_accounts "2 3 4" .empty
  obtain ⟨-, -, -, hoperands⟩ := evaluate_accounts "log(8) + 1" .empty
  exact ⟨⟨hvalue, hone _ hvalue⟩, ⟨hleft, hleftover _ hleft⟩, hlacks, hoperands _ _ _ hlacks⟩

end Formula
end Reckoner
