import Reckoner.Result
import Reckoner.Token

/-! Postfix order.

In postfix order an operator stands after its two operands and a function after
its arguments, so that no parentheses are needed. Tokens are put into it from
left to right: operands are written at once, and what has to wait for its last
operand waits on a stack of `Pending` entries. `step` gives what one token writes
and the stack it leaves, `run` the same for many tokens (`run_append`).

The kinds of entries are all a stack can hold: no operand, comma or closing
parenthesis ever waits. -/
namespace Reckoner

/-- What waits for operands that are still to be written. -/
inductive Pending where
  | operator (o : Operator)
  | call (f : Elementary) (power : Option Float)
  | leftParen
deriving DecidableEq

namespace Pending

def token : Pending → Token
  | operator o => .operator o
  | call f power => .call f power
  | leftParen => .symbol .leftParen

/-- The entry is written before the operator begins to wait. A function is always:
its one operand stands directly after it. -/
def givesWay (o : Operator) : Pending → Bool
  | operator waiting => (Symbol.operator o).yieldsTo (.operator waiting)
  | call _ _ => true
  | leftParen => (Symbol.operator o).yieldsTo .leftParen

/-- The entries above the innermost open parenthesis, and those below it; nothing
if none is open. The top of a stack comes first. -/
def unwind : List Pending → Option (List Token × List Pending)
  | [] => none
  | leftParen :: below => some ([], below)
  | entry :: stack => (unwind stack).map fun (inner, below) => (entry.token :: inner, below)

/-- A function whose parentheses have been closed is written. -/
def release : List Pending → List Token × List Pending
  | call f power :: below => ([.call f power], below)
  | stack => ([], stack)

@[simp] theorem givesWay_operator (o waiting : Operator) :
    givesWay o (operator waiting) = o.yieldsTo waiting := Symbol.yieldsTo_operator o waiting

@[simp] theorem givesWay_call (o : Operator) (f : Elementary) (power : Option Float) :
    givesWay o (call f power) = true := rfl

/-- An open parenthesis waits until it is closed. -/
@[simp] theorem givesWay_leftParen (o : Operator) : givesWay o leftParen = false :=
  Symbol.yieldsTo_leftParen o

/-- What is above the innermost open parenthesis is written, the top first. -/
theorem unwind_append {inner : List Pending} (h : leftParen ∉ inner) (below : List Pending) :
    unwind (inner ++ leftParen :: below) = some (inner.map token, below) := by
  induction inner with
  | nil => rfl
  | cons entry inner ih =>
    have hinner := ih (fun hmem => h (List.mem_cons_of_mem _ hmem))
    cases entry with
    | leftParen => exact absurd (List.mem_cons_self ..) h
    | _ => simp [unwind, hinner]

/-- What is unwound is what stands above the innermost open parenthesis. -/
theorem unwind_eq_some_iff {stack below : List Pending} {inner : List Token} :
    unwind stack = some (inner, below) ↔
      ∃ above, leftParen ∉ above ∧ stack = above ++ leftParen :: below ∧ inner = above.map token := by
  constructor
  · intro h
    induction stack generalizing inner with
    | nil => cases h
    | cons entry stack ih =>
      cases entry with
      | leftParen =>
        cases h
        exact ⟨[], List.not_mem_nil, rfl, rfl⟩
      | _ =>
        simp only [unwind, Option.map_eq_some_iff, Prod.exists, Prod.mk.injEq] at h
        obtain ⟨inner', below', hstack, rfl, rfl⟩ := h
        obtain ⟨above, hclosed, rfl, rfl⟩ := ih hstack
        exact ⟨_ :: above, by simpa using hclosed, rfl, rfl⟩
  · rintro ⟨above, hclosed, rfl, rfl⟩
    exact unwind_append hclosed below

theorem unwind_eq_none_iff {stack : List Pending} : unwind stack = none ↔ leftParen ∉ stack := by
  induction stack with
  | nil => simp [unwind]
  | cons entry stack ih => cases entry <;> simp [unwind, ih]

end Pending

/-- Tokens in postfix order. -/
abbrev Postfix := List Token

namespace Postfix
open Pending (unwind release givesWay)

/-- What a token writes, and the entries that wait after it. -/
def step (stack : List Pending) : Token → Except FormulaError (Postfix × List Pending)
  | .number v => .ok ([.number v], stack)
  | .var name power => .ok ([.var name power], stack)
  | .call f power => .ok ([], .call f power :: stack)
  | .symbol (.operator o) =>
    .ok ((stack.takeWhile (givesWay o)).map Pending.token,
      .operator o :: stack.dropWhile (givesWay o))
  | .symbol .leftParen => .ok ([], .leftParen :: stack)
  | .symbol .comma =>
    match unwind stack with
    | some (inner, below) => .ok (inner, .leftParen :: below)
    | none => .error .misplacedSeparator
  | .symbol .rightParen =>
    match unwind stack with
    | some (inner, below) => .ok (inner ++ (release below).1, (release below).2)
    | none => .error .mismatchedParentheses

/-- What tokens write, and the entries that wait after them. -/
def run (stack : List Pending) : List Token → Except FormulaError (Postfix × List Pending)
  | [] => .ok ([], stack)
  | t :: rest => do
    let (written, stack) ← step stack t
    let (more, stack) ← run stack rest
    return (written ++ more, stack)

/-- What the entries that wait at the end write. None may be an open parenthesis. -/
def finish (stack : List Pending) : Except FormulaError Postfix :=
  match unwind stack with
  | none => .ok (stack.map Pending.token)
  | some _ => .error .mismatchedParentheses

/-- Tokens put into postfix order. -/
def ofTokens (tokens : List Token) : Except FormulaError Postfix := do
  let (written, stack) ← run [] tokens
  return written ++ (← finish stack)

/-- Tokens that follow others go on with the stack these leave. -/
theorem run_append (stack : List Pending) (a b : List Token) :
    run stack (a ++ b) = do
      let (first, between) ← run stack a
      let (second, after) ← run between b
      return (first ++ second, after) := by
  induction a generalizing stack with
  | nil => simp [run]
  | cons t a ih => simp [run, ih]

end Postfix
end Reckoner
