import Reckoner.Postfix

/-! What a token can do to a stack.

A token that is put into postfix order writes entries of the stack or itself, and may wait
on the stack after that. `Transition` has a case for each kind of token, in which the stack
is taken apart already, and `transition_of_step` says that these are all the steps there are:
what every conversion keeps is shown by these cases and an induction over the run. A token is
refused only where no parenthesis is open (`step_eq_error_iff`). -/
namespace Reckoner

namespace Pending

theorem not_mem_of_givesWay {o : Operator} {stack : List Pending}
    (h : ∀ entry ∈ stack, givesWay o entry) : leftParen ∉ stack := by
  intro hmem
  exact absurd (h _ hmem) (by simp)

end Pending

namespace Postfix
open Pending (unwind release givesWay)

/-- What a token writes, and the entries that wait after it. -/
inductive Transition : List Pending → Token → Postfix → List Pending → Prop where
  | number {stack : List Pending} {v : Float} : Transition stack (.number v) [.number v] stack
  | var {stack : List Pending} {name : String} {power : Option Float} :
    Transition stack (.var name power) [.var name power] stack
  | call {stack : List Pending} {f : Elementary} {power : Option Float} :
    Transition stack (.call f power) [] (.call f power :: stack)
  | operator {above below : List Pending} {o : Operator} :
    (∀ entry ∈ above, givesWay o entry) → (∀ entry ∈ below.head?, givesWay o entry = false) →
    Transition (above ++ below) (.operator o) (above.map Pending.token) (.operator o :: below)
  | leftParen {stack : List Pending} : Transition stack (.symbol .leftParen) [] (.leftParen :: stack)
  | comma {above below : List Pending} : .leftParen ∉ above →
    Transition (above ++ .leftParen :: below) (.symbol .comma) (above.map Pending.token)
      (.leftParen :: below)
  | rightParen {above below : List Pending} : .leftParen ∉ above →
    Transition (above ++ .leftParen :: below) (.symbol .rightParen)
      (above.map Pending.token ++ (release below).1) (release below).2

theorem transition_of_step {stack after : List Pending} {t : Token} {written : Postfix}
    (h : step stack t = .ok (written, after)) : Transition stack t written after := by
  cases t with
  | number v =>
    cases h
    exact .number
  | var name power =>
    cases h
    exact .var
  | call f power =>
    cases h
    exact .call
  | symbol s =>
    cases s with
    | operator o =>
      cases h
      have habove : ∀ entry ∈ stack.takeWhile (givesWay o), givesWay o entry :=
        List.all_eq_true.1 List.all_takeWhile
      have hbelow : ∀ entry ∈ (stack.dropWhile (givesWay o)).head?, givesWay o entry = false := by
        intro entry hentry
        have hstays := List.head?_dropWhile_not (givesWay o) stack
        rwa [Option.mem_def.1 hentry] at hstays
      have hoperator := Transition.operator habove hbelow
      rwa [List.takeWhile_append_dropWhile] at hoperator
    | leftParen =>
      cases h
      exact .leftParen
    | comma =>
      cases hunwind : unwind stack with
      | none => simp [step, hunwind] at h
      | some parts =>
        simp only [step, hunwind] at h
        cases h
        obtain ⟨above, hclosed, rfl, hinner⟩ := Pending.unwind_eq_some_iff.1 hunwind
        rw [hinner]
        exact .comma hclosed
    | rightParen =>
      cases hunwind : unwind stack with
      | none => simp [step, hunwind] at h
      | some parts =>
        simp only [step, hunwind] at h
        cases h
        obtain ⟨above, hclosed, rfl, hinner⟩ := Pending.unwind_eq_some_iff.1 hunwind
        rw [hinner]
        exact .rightParen hclosed

theorem step_of_transition {stack after : List Pending} {t : Token} {written : Postfix}
    (h : Transition stack t written after) : step stack t = .ok (written, after) := by
  cases h with
  | @operator above below o habove hbelow =>
    simp only [step, List.takeWhile_append_of_pos habove, List.dropWhile_append_of_pos habove]
    cases below with
    | nil => simp
    | cons entry below => simp [hbelow entry rfl]
  | comma hclosed => simp only [step, Pending.unwind_append hclosed]
  | rightParen hclosed => simp only [step, Pending.unwind_append hclosed]
  | _ => rfl

theorem step_eq_error_iff {stack : List Pending} {t : Token} {e : FormulaError} :
    step stack t = .error e ↔ .leftParen ∉ stack ∧
      (t = .symbol .comma ∧ e = .misplacedSeparator ∨
        t = .symbol .rightParen ∧ e = .mismatchedParentheses) := by
  rw [← Pending.unwind_eq_none_iff]
  cases t with
  | symbol s =>
    cases s with
    | comma | rightParen => cases hunwind : unwind stack <;> simp [step, hunwind, eq_comm]
    | operator o | leftParen => simp [step]
  | _ => simp [step]

/-! ### Runs -/

theorem run_cons_eq_ok_iff {stack after : List Pending} {t : Token} {rest : List Token}
    {written : Postfix} :
    run stack (t :: rest) = .ok (written, after) ↔
      ∃ first between second, step stack t = .ok (first, between) ∧
        run between rest = .ok (second, after) ∧ written = first ++ second := by
  simp only [run, Except.bind_eq_ok_iff, Except.pure_eq_ok_iff, Prod.exists, Prod.mk.injEq]
  constructor
  · rintro ⟨first, between, hstep, second, _, hrest, rfl, rfl⟩
    exact ⟨first, between, second, hstep, hrest, rfl⟩
  · rintro ⟨first, between, second, hstep, hrest, rfl⟩
    exact ⟨first, between, hstep, second, after, hrest, rfl, rfl⟩

theorem run_singleton (stack : List Pending) (t : Token) : run stack [t] = step stack t := by
  cases hstep : step stack t <;> simp [run, hstep]

theorem run_append_of_ok {stack between after : List Pending} {a b : List Token}
    {first second : Postfix} (ha : run stack a = .ok (first, between))
    (hb : run between b = .ok (second, after)) :
    run stack (a ++ b) = .ok (first ++ second, after) := by
  simp [run_append, ha, hb]

theorem finish_eq_ok_iff {stack : List Pending} {rest : Postfix} :
    finish stack = .ok rest ↔ .leftParen ∉ stack ∧ stack.map Pending.token = rest := by
  rw [finish, ← Pending.unwind_eq_none_iff]
  cases unwind stack <;> simp

theorem finish_eq_error_iff {stack : List Pending} {e : FormulaError} :
    finish stack = .error e ↔ .leftParen ∈ stack ∧ e = .mismatchedParentheses := by
  have hunwind := @Pending.unwind_eq_none_iff stack
  rw [finish]
  cases h : unwind stack <;> simp_all [eq_comm]

theorem ofTokens_eq_ok_iff {tokens : List Token} {sequence : Postfix} :
    ofTokens tokens = .ok sequence ↔
      ∃ written stack, run [] tokens = .ok (written, stack) ∧ .leftParen ∉ stack ∧
        sequence = written ++ stack.map Pending.token := by
  simp only [ofTokens, Except.bind_eq_ok_iff, Except.pure_eq_ok_iff, Prod.exists, finish_eq_ok_iff]
  constructor
  · rintro ⟨written, stack, hrun, _, ⟨hclosed, rfl⟩, rfl⟩
    exact ⟨written, stack, hrun, hclosed, rfl⟩
  · rintro ⟨written, stack, hrun, hclosed, rfl⟩
    exact ⟨written, stack, hrun, _, ⟨hclosed, rfl⟩, rfl⟩

end Postfix
end Reckoner
