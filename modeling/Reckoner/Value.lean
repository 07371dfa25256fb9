import Reckoner.Bindings
import Reckoner.Postfix
import Reckoner.Number.Numeral

/-! The value of tokens in postfix order.

Values are kept on a stack whose top is the last one computed. An operand is put
on top; an operator or a function takes its operands from the top, the last one
first, and puts its result in their place. The value of all tokens is the one
value they leave. -/
namespace Reckoner

namespace Bindings

/-- The number that a variable's text holds. -/
def number (b : Bindings) (name : String) : Except FormulaError Float :=
  match b.get? name with
  | some text => .ok (readNumber text)
  | none => .error (.undefinedVariable name)

end Bindings

namespace Postfix

/-- The top `count` values, the oldest first, and the values below them; or what
is wrong with there being too few for the symbol. -/
def operands (symbol : String) (count : Nat) (stack : List Float) :
    Except FormulaError (List Float × List Float) :=
  if stack.length < count then .error (.operandCount symbol count stack.length)
  else .ok ((stack.take count).reverse, stack.drop count)

/-- The stack after a token. -/
def act (b : Bindings) (stack : List Float) : Token → Except FormulaError (List Float)
  | .number v => .ok (v :: stack)
  | .var name power => do
    let v ← b.number name
    return raise v power :: stack
  | .call f power => do
    let (arguments, below) ← operands f.name f.arity stack
    let v ← f.apply arguments
    return raise v power :: below
  | .symbol s =>
    match stack with
    | right :: left :: below => return (← s.apply left right) :: below
    | _ => .error (.operandCount s.text 2 stack.length)

/-- The stack after tokens. -/
def stackAfter (b : Bindings) (stack : List Float) : Postfix → Except FormulaError (List Float)
  | [] => .ok stack
  | t :: rest => do stackAfter b (← act b stack t) rest

/-- The value of tokens in postfix order. -/
def value (tokens : Postfix) (b : Bindings) : Except FormulaError Float := do
  match ← stackAfter b [] tokens with
  | [v] => return v
  | stack => .error (.leftoverValues stack.length)

theorem operands_eq_ok_iff {symbol : String} {count : Nat} {stack : List Float}
    {parts : List Float × List Float} :
    operands symbol count stack = .ok parts ↔
      count ≤ stack.length ∧ parts = ((stack.take count).reverse, stack.drop count) := by
  unfold operands
  split
  · simp only [reduceCtorEq, false_iff]
    omega
  · simp only [Except.ok.injEq, eq_comm]
    constructor
    · exact fun h => ⟨by omega, h⟩
    · exact fun h => h.2

theorem stackAfter_append (b : Bindings) (stack : List Float) (first second : Postfix) :
    stackAfter b stack (first ++ second) =
      stackAfter b stack first >>= fun between => stackAfter b between second := by
  induction first generalizing stack with
  | nil => rfl
  | cons t rest ih => simp only [List.cons_append, stackAfter, ih, bind_assoc]

/-- What has a value leaves it alone on the stack. -/
theorem value_eq_ok_iff_stackAfter {tokens : Postfix} {b : Bindings} {v : Float} :
    tokens.value b = .ok v ↔ stackAfter b [] tokens = .ok [v] := by
  rw [value, Except.bind_eq_ok_iff]
  constructor
  · rintro ⟨stack, hstack, h⟩
    rcases stack with _ | ⟨_, _ | _⟩ <;> cases h
    exact hstack
  · exact fun h => ⟨[v], h, rfl⟩

theorem value_eq_error_iff_stackAfter {tokens : Postfix} {b : Bindings} {e : FormulaError} :
    tokens.value b = .error e ↔ stackAfter b [] tokens = .error e ∨
      ∃ stack, stackAfter b [] tokens = .ok stack ∧ stack.length ≠ 1 ∧
        .leftoverValues stack.length = e := by
  rw [value, Except.bind_eq_error_iff]
  refine or_congr_right (exists_congr fun stack => and_congr_right fun _ => ?_)
  rcases stack with _ | ⟨_, _ | _⟩ <;> simp

end Postfix
end Reckoner
