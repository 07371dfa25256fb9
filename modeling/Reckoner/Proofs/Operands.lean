import Reckoner.Proofs.Transition

/-! Operands on their way into postfix order.

An operand is written when it is met, and nothing of it is looked at; all that is
written besides are entries of the stack, none of which is an operand (`Transition.writes`).
So operands stay in the order in which they stand: `operands_ofTokens`, and
`names_ofTokens` for the variables among them. -/
namespace Reckoner

namespace Token

/-- The token stands for a value by itself. -/
def isOperand : Token → Bool
  | number _ | var _ _ => true
  | call _ _ | symbol _ => false

/-- The names of the variables among tokens, from left to right. -/
def names (tokens : List Token) : List String := tokens.filterMap variableName?

theorem names_cons (t : Token) (tokens : List Token) :
    names (t :: tokens) = t.variableName?.toList ++ names tokens := by
  cases t <;> rfl

/-- Only operands have names. -/
theorem names_filter_isOperand (tokens : List Token) :
    names (tokens.filter isOperand) = names tokens := by
  induction tokens with
  | nil => rfl
  | cons t tokens ih =>
    rw [names_cons, ← ih]
    cases t <;> rfl

end Token

namespace Pending

theorem not_isOperand_token (entry : Pending) : entry.token.isOperand = false := by
  cases entry <;> rfl

theorem release_writes (stack : List Pending) :
    ∃ entries : List Pending, (release stack).1 = entries.map token := by
  cases stack with
  | nil => exact ⟨[], rfl⟩
  | cons entry below =>
    cases entry with
    | call f power => exact ⟨[.call f power], rfl⟩
    | _ => exact ⟨[], rfl⟩

end Pending

namespace Postfix

/-- A token writes itself if it is an operand, and entries of the stack. -/
theorem Transition.writes {stack after : List Pending} {t : Token} {written : Postfix}
    (h : Transition stack t written after) : ∃ entries : List Pending,
      written = [t].filter Token.isOperand ++ entries.map Pending.token := by
  cases h with
  | number => exact ⟨[], rfl⟩
  | var => exact ⟨[], rfl⟩
  | call => exact ⟨[], rfl⟩
  | leftParen => exact ⟨[], rfl⟩
  | operator => exact ⟨_, rfl⟩
  | comma => exact ⟨_, rfl⟩
  | @rightParen above below _ =>
    obtain ⟨released, hreleased⟩ := Pending.release_writes below
    refine ⟨above ++ released, ?_⟩
    rw [hreleased, ← List.map_append]
    rfl

theorem operands_entries (entries : List Pending) :
    (entries.map Pending.token).filter Token.isOperand = [] := by
  simp [List.filter_map, List.filter_eq_nil_iff, Pending.not_isOperand_token]

theorem operands_run {stack after : List Pending} {tokens : List Token} {written : Postfix}
    (h : run stack tokens = .ok (written, after)) :
    written.filter Token.isOperand = tokens.filter Token.isOperand := by
  induction tokens generalizing stack written with
  | nil =>
    cases h
    rfl
  | cons t rest ih =>
    obtain ⟨first, between, second, hstep, hrest, rfl⟩ := run_cons_eq_ok_iff.1 h
    obtain ⟨entries, rfl⟩ := (transition_of_step hstep).writes
    rw [List.filter_append, List.filter_append, List.filter_filter, operands_entries, ih hrest]
    simp only [Bool.and_self, List.append_nil, ← List.filter_append, List.singleton_append]

/-- Operands stay in their order, and none is lost or added. -/
theorem operands_ofTokens {tokens : List Token} {sequence : Postfix}
    (h : ofTokens tokens = .ok sequence) :
    sequence.filter Token.isOperand = tokens.filter Token.isOperand := by
  obtain ⟨written, stack, hrun, -, rfl⟩ := ofTokens_eq_ok_iff.1 h
  rw [List.filter_append, operands_run hrun, operands_entries, List.append_nil]

theorem names_ofTokens {tokens : List Token} {sequence : Postfix}
    (h : ofTokens tokens = .ok sequence) : Token.names sequence = Token.names tokens := by
  rw [← Token.names_filter_isOperand, operands_ofTokens h, Token.names_filter_isOperand]

end Postfix
end Reckoner
