import Mathlib.Data.List.Forall2
import Reckoner.Proofs.Transition

/-! Parentheses, and what happens between them.

What stands inside of parentheses is put into postfix order as it would be by
itself: an open parenthesis on the stack hides everything below it (`run_above`),
and the comma or the parenthesis that ends a segment writes all that still waits
in it. So `run_group`: a pair of parentheses around segments writes the segments
one after the other, and then the function whose parentheses they are.

How deep the parentheses are nested can be told without any stack. `nesting`
counts it, and `nesting_run` says that the count is the number of parentheses on
the stack, and that the conversion fails where the count does. -/
namespace Reckoner

namespace Token

/-- Segments with commas between them. -/
def separated (segments : List (List Token)) : List Token :=
  [symbol .comma].intercalate segments

/-- Segments in parentheses. -/
def group (segments : List (List Token)) : List Token :=
  symbol .leftParen :: (separated segments ++ [symbol .rightParen])

theorem getLast?_group (segments : List (List Token)) :
    (group segments).getLast? = some (symbol .rightParen) := by
  simp [group, List.getLast?_cons]

end Token

namespace Pending

theorem release_above (stack below : List Pending) :
    release (stack ++ leftParen :: below) =
      ((release stack).1, (release stack).2 ++ leftParen :: below) := by
  cases stack with
  | nil => rfl
  | cons entry stack => cases entry <;> rfl

end Pending

namespace Postfix
open Pending (release)
open Token (separated group)

/-! ### Above an open parenthesis -/

theorem Transition.above {stack after : List Pending} {t : Token} {written : Postfix}
    (below : List Pending) (h : Transition stack t written after) :
    Transition (stack ++ .leftParen :: below) t written (after ++ .leftParen :: below) := by
  cases h with
  | number => exact .number
  | var => exact .var
  | call => exact .call
  | leftParen => exact .leftParen
  | @operator above between o habove hbetween =>
    rw [List.append_assoc]
    refine .operator habove ?_
    cases between with
    | nil =>
      rintro entry ⟨⟩
      exact Pending.givesWay_leftParen o
    | cons entry between => exact hbetween
  | comma hclosed =>
    rw [List.append_assoc]
    exact .comma hclosed
  | @rightParen above between hclosed =>
    have hrelease := Pending.release_above between below
    rw [List.append_assoc]
    simpa [hrelease] using @rightParen above (between ++ .leftParen :: below) hclosed

/-- What runs on a stack runs the same above an open parenthesis. -/
theorem run_above {stack after : List Pending} {tokens : List Token} {written : Postfix}
    (below : List Pending) (h : run stack tokens = .ok (written, after)) :
    run (stack ++ .leftParen :: below) tokens = .ok (written, after ++ .leftParen :: below) := by
  induction tokens generalizing stack written with
  | nil =>
    cases h
    rfl
  | cons t rest ih =>
    obtain ⟨first, between, second, hstep, hrest, rfl⟩ := run_cons_eq_ok_iff.1 h
    exact run_cons_eq_ok_iff.2 ⟨first, _, second,
      step_of_transition ((transition_of_step hstep).above below), ih hrest, rfl⟩

/-! ### Groups -/

/-- The comma after a segment writes all of it. -/
theorem run_segment_comma {segment : List Token} {sequence : Postfix} (below : List Pending)
    (h : ofTokens segment = .ok sequence) :
    run (.leftParen :: below) (segment ++ [.symbol .comma]) =
      .ok (sequence, .leftParen :: below) := by
  obtain ⟨written, stack, hrun, hstack, rfl⟩ := ofTokens_eq_ok_iff.1 h
  refine run_append_of_ok (run_above below hrun) ?_
  simp only [run_singleton, step, Pending.unwind_append hstack]

/-- So does the parenthesis after the last one, which then writes the function
whose parentheses they are. -/
theorem run_segment_rightParen {segment : List Token} {sequence : Postfix} (below : List Pending)
    (h : ofTokens segment = .ok sequence) :
    run (.leftParen :: below) (segment ++ [.symbol .rightParen]) =
      .ok (sequence ++ (release below).1, (release below).2) := by
  obtain ⟨written, stack, hrun, hstack, rfl⟩ := ofTokens_eq_ok_iff.1 h
  rw [List.append_assoc]
  refine run_append_of_ok (run_above below hrun) ?_
  simp only [run_singleton, step, Pending.unwind_append hstack]

theorem run_segments {segments : List (List Token)} {sequences : List Postfix}
    (below : List Pending)
    (h : List.Forall₂ (fun segment sequence => ofTokens segment = .ok sequence) segments sequences) :
    run (.leftParen :: below) (separated segments ++ [.symbol .rightParen]) =
      .ok (sequences.flatten ++ (release below).1, (release below).2) := by
  induction h with
  | nil => exact run_segment_rightParen below (show ofTokens [] = .ok [] from rfl)
  | @cons segment sequence segments sequences hsegment hsegments ih =>
    cases segments with
    | nil =>
      cases hsegments
      simpa [separated, List.intercalate] using run_segment_rightParen below hsegment
    | cons next rest =>
      have hcomma := run_append_of_ok (run_segment_comma below hsegment) ih
      simpa [separated, List.intercalate, List.append_assoc] using hcomma

/-- Segments in parentheses are written one after the other, and after them the
function that waits for them. -/
theorem run_group {segments : List (List Token)} {sequences : List Postfix} (below : List Pending)
    (h : List.Forall₂ (fun segment sequence => ofTokens segment = .ok sequence) segments sequences) :
    run below (group segments) = .ok (sequences.flatten ++ (release below).1, (release below).2) :=
  run_cons_eq_ok_iff.2 ⟨[], _, _, rfl, run_segments below h, rfl⟩

/-! ### Depth -/

/-- The depth of parentheses after a token, if it may stand at the depth before it:
a comma and a closing parenthesis may not outside of all parentheses. -/
def deepen (depth : Nat) : Token → Except FormulaError Nat
  | .symbol .leftParen => .ok (depth + 1)
  | .symbol .rightParen => if depth = 0 then .error .mismatchedParentheses else .ok (depth - 1)
  | .symbol .comma => if depth = 0 then .error .misplacedSeparator else .ok depth
  | _ => .ok depth

/-- The depth after tokens, or what the first token that may not stand is. -/
def nesting (depth : Nat) : List Token → Except FormulaError Nat
  | [] => .ok depth
  | t :: rest => do nesting (← deepen depth t) rest

/-- The number of parentheses that are open on a stack. -/
def openParens (stack : List Pending) : Nat := stack.count .leftParen

theorem openParens_eq_zero_iff {stack : List Pending} :
    openParens stack = 0 ↔ .leftParen ∉ stack :=
  List.count_eq_zero

@[simp]
theorem openParens_append (above below : List Pending) :
    openParens (above ++ below) = openParens above + openParens below :=
  List.count_append

@[simp]
theorem openParens_operator (o : Operator) (below : List Pending) :
    openParens (.operator o :: below) = openParens below := by
  simp [openParens]

@[simp]
theorem openParens_call (f : Elementary) (power : Option Float) (below : List Pending) :
    openParens (.call f power :: below) = openParens below := by
  simp [openParens]

@[simp]
theorem openParens_leftParen (below : List Pending) :
    openParens (.leftParen :: below) = openParens below + 1 :=
  List.count_cons_self

@[simp]
theorem openParens_release (stack : List Pending) :
    openParens (release stack).2 = openParens stack := by
  cases stack with
  | nil => rfl
  | cons entry stack => cases entry <;> simp [release]

theorem Transition.deepen {stack after : List Pending} {t : Token} {written : Postfix}
    (h : Transition stack t written after) : deepen (openParens stack) t = .ok (openParens after) := by
  cases h with
  | number => rfl
  | var => rfl
  | call => simp [Postfix.deepen]
  | leftParen => simp [Postfix.deepen]
  | operator habove hbelow =>
    simp [Postfix.deepen, openParens_eq_zero_iff.2 (Pending.not_mem_of_givesWay habove)]
  | comma hclosed => simp [Postfix.deepen, openParens_eq_zero_iff.2 hclosed]
  | rightParen hclosed => simp [Postfix.deepen, openParens_eq_zero_iff.2 hclosed]

/-- A token fails at a stack as it fails at the depth of the stack, and leaves a
stack of the depth it leaves. -/
theorem deepen_step (stack : List Pending) (t : Token) :
    (step stack t).map (fun next => openParens next.2) = deepen (openParens stack) t := by
  cases hstep : step stack t with
  | error e =>
    obtain ⟨hclosed, ⟨rfl, rfl⟩ | ⟨rfl, rfl⟩⟩ := step_eq_error_iff.1 hstep <;>
      simp [Except.map, deepen, openParens_eq_zero_iff.2 hclosed]
  | ok next => exact (transition_of_step hstep).deepen.symm

theorem nesting_run (stack : List Pending) (tokens : List Token) :
    (run stack tokens).map (fun result => openParens result.2) =
      nesting (openParens stack) tokens := by
  induction tokens generalizing stack with
  | nil => rfl
  | cons t rest ih =>
    rw [run, nesting, ← deepen_step stack t]
    cases step stack t with
    | error e => rfl
    | ok next =>
      show Except.map _ (run next.2 rest >>= _) = nesting (openParens next.2) rest
      rw [← ih]
      cases run next.2 rest <;> rfl

theorem nesting_eq_error {depth : Nat} {tokens : List Token} {e : FormulaError}
    (h : nesting depth tokens = .error e) :
    e = .misplacedSeparator ∨ e = .mismatchedParentheses := by
  induction tokens generalizing depth with
  | nil => cases h
  | cons t rest ih =>
    rcases Except.bind_eq_error_iff.1 h with hdeepen | ⟨deeper, -, hrest⟩
    · -- Only a comma and a closing parenthesis are ever refused.
      unfold deepen at hdeepen
      grind
    · exact ih hrest

theorem nesting_zero (tokens : List Token) :
    nesting 0 tokens = (run [] tokens).map fun result => openParens result.2 :=
  (nesting_run [] tokens).symm

theorem nesting_eq_error_iff {tokens : List Token} {e : FormulaError} :
    nesting 0 tokens = .error e ↔ run [] tokens = .error e := by
  rw [nesting_zero, Except.map_eq_error_iff]

theorem nesting_eq_ok_iff {tokens : List Token} {depth : Nat} :
    nesting 0 tokens = .ok depth ↔
      ∃ written stack, run [] tokens = .ok (written, stack) ∧ openParens stack = depth := by
  rw [nesting_zero, Except.map_eq_ok_iff, Prod.exists]

/-- Tokens can be put into postfix order exactly if their parentheses match and
every comma stands inside of parentheses. -/
theorem ofTokens_isOk_iff {tokens : List Token} :
    (∃ sequence, ofTokens tokens = .ok sequence) ↔ nesting 0 tokens = .ok 0 := by
  simp only [ofTokens_eq_ok_iff, nesting_eq_ok_iff, openParens_eq_zero_iff]
  constructor
  · rintro ⟨sequence, written, stack, hrun, hclosed, -⟩
    exact ⟨written, stack, hrun, hclosed⟩
  · rintro ⟨written, stack, hrun, hclosed⟩
    exact ⟨_, written, stack, hrun, hclosed, rfl⟩

/-- A conversion fails where the count of parentheses does, or some are open at its end. -/
theorem ofTokens_eq_error_iff {tokens : List Token} {e : FormulaError} :
    ofTokens tokens = .error e ↔ nesting 0 tokens = .error e ∨
      ∃ depth, nesting 0 tokens = .ok depth ∧ depth ≠ 0 ∧ e = .mismatchedParentheses := by
  simp only [ofTokens, Except.bind_eq_error_iff, Except.pure_ne_error, and_false, exists_false,
    or_false, Prod.exists, finish_eq_error_iff, nesting_eq_error_iff, nesting_eq_ok_iff]
  refine or_congr_right ⟨?_, ?_⟩
  · rintro ⟨written, stack, hrun, hopen, rfl⟩
    exact ⟨_, ⟨written, stack, hrun, rfl⟩, mt openParens_eq_zero_iff.1 (not_not.2 hopen), rfl⟩
  · rintro ⟨_, ⟨written, stack, hrun, rfl⟩, hopen, rfl⟩
    exact ⟨written, stack, hrun, not_not.1 (mt openParens_eq_zero_iff.2 hopen), rfl⟩

/-- Only parentheses and commas can be in the way of a conversion. -/
theorem ofTokens_eq_error {tokens : List Token} {e : FormulaError}
    (h : ofTokens tokens = .error e) : e = .misplacedSeparator ∨ e = .mismatchedParentheses := by
  rcases ofTokens_eq_error_iff.1 h with hnesting | ⟨-, -, -, he⟩
  · exact nesting_eq_error hnesting
  · exact .inr he

end Postfix
end Reckoner
