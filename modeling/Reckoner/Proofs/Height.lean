import Reckoner.Proofs.Tree

/-! How many values there are.

Whether a token in postfix order finds its operands can be told without any value.
`height` counts the values on the stack, and `height_stackAfter` says that the count
is the length of the stack, and that the evaluation fails where the count does. So
what numbers a formula is evaluated at decides its value but never whether it has
one: `value_isOk_iff` and `value_eq_error_iff`. -/
namespace Reckoner

namespace Postfix

/-- The number of values after a token, by the number before it. -/
def grow (b : Bindings) (count : Nat) : Token → Except FormulaError Nat
  | .number _ => .ok (count + 1)
  | .var name _ =>
    if b.Binds name then .ok (count + 1) else .error (.undefinedVariable name)
  | .call f _ =>
    if count < f.arity then .error (.operandCount f.name f.arity count)
    else .ok (count - f.arity + 1)
  | .symbol s =>
    if count < 2 then .error (.operandCount s.text 2 count)
    else match s with
      | .operator _ => .ok (count - 1)
      | s => .error (.notAnOperator s.text)

/-- The number of values after tokens. -/
def height (b : Bindings) (count : Nat) : Postfix → Except FormulaError Nat
  | [] => .ok count
  | t :: rest => do height b (← grow b count t) rest

/-- A token fails on a stack as it fails on the number of its values, and leaves as
many values as are counted after it. -/
theorem grow_act (b : Bindings) (stack : List Float) (t : Token) :
    (act b stack t).map List.length = grow b stack.length t := by
  cases t with
  | number v => rfl
  | var name power =>
    by_cases hbound : b.Binds name
    · have hnumber := Bindings.number_eq_ok_iff.2 ⟨hbound, rfl⟩
      simp [act, grow, hbound, hnumber, Except.map]
    · have hnumber := Bindings.number_eq_error hbound
      simp [act, grow, hbound, hnumber, Except.map]
  | call f power =>
    by_cases hcount : stack.length < f.arity
    · simp [act, grow, operands, hcount, Except.map]
    · have hlength : (stack.take f.arity).reverse.length = f.arity := by
        rw [List.length_reverse, List.length_take]
        omega
      have happly := Elementary.apply_eq_ok hlength
      simp [act, grow, operands, hcount, happly, Except.map]
  | symbol s =>
    rcases stack with _ | ⟨right, _ | ⟨left, below⟩⟩
    · rfl
    · rfl
    · have hcount : ¬ (right :: left :: below).length < 2 := by simp
      cases s <;> simp only [act, grow, if_neg hcount] <;> rfl

theorem height_stackAfter (b : Bindings) (stack : List Float) (tokens : Postfix) :
    (stackAfter b stack tokens).map List.length = height b stack.length tokens := by
  induction tokens generalizing stack with
  | nil => rfl
  | cons t rest ih =>
    have hact := grow_act b stack t
    rw [stackAfter, height, ← hact]
    cases act b stack t with
    | error e => rfl
    | ok between => exact ih between

/-! ### Evaluation and the count -/

theorem height_zero (b : Bindings) (tokens : Postfix) :
    height b 0 tokens = (stackAfter b [] tokens).map List.length :=
  (height_stackAfter b [] tokens).symm

/-- What evaluates is what leaves one value. -/
theorem value_isOk_iff {tokens : Postfix} {b : Bindings} :
    (∃ v, tokens.value b = .ok v) ↔ height b 0 tokens = .ok 1 := by
  simp only [value_eq_ok_iff_stackAfter, height_zero, Except.map_eq_ok_iff, List.length_eq_one_iff]
  constructor
  · rintro ⟨v, h⟩
    exact ⟨[v], h, v, rfl⟩
  · rintro ⟨_, h, v, rfl⟩
    exact ⟨v, h⟩

/-- What does not evaluate fails where the count does, or it leaves too many values or
none. -/
theorem value_eq_error_iff {tokens : Postfix} {b : Bindings} {e : FormulaError} :
    tokens.value b = .error e ↔ height b 0 tokens = .error e ∨
      ∃ count, height b 0 tokens = .ok count ∧ count ≠ 1 ∧ e = .leftoverValues count := by
  rw [value_eq_error_iff_stackAfter, height_zero, Except.map_eq_error_iff]
  simp only [Except.map_eq_ok_iff]
  refine or_congr_right ⟨?_, ?_⟩
  · rintro ⟨stack, hstack, hcount, rfl⟩
    exact ⟨_, ⟨stack, hstack, rfl⟩, hcount, rfl⟩
  · rintro ⟨_, ⟨stack, hstack, rfl⟩, hcount, rfl⟩
    exact ⟨stack, hstack, hcount, rfl⟩

end Postfix
end Reckoner
