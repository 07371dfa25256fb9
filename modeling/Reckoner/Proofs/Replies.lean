import Mathlib.Data.List.Forall2
import Reckoner.Session

/-! What a session replies.

`Fresh` says what an answer is when it is computed anew from the request, stage by
stage. Every answer of a session is fresh (`answers_fresh`), however much room it
has and whatever was compiled, dropped, refused or forgotten before: what it keeps
is what compiling gives, and that carries over from each request to the next. -/
namespace Reckoner

/-- A formula that does not compile has no value under any bindings. -/
theorem Formula.evaluate_of_compile_eq_error {text : String} {e : FormulaError}
    (h : compile text = .error e) (b : Bindings) : evaluate text b = .error e := by
  rw [evaluate, h]
  rfl

namespace Request

/-- The answer is a fresh computation's. -/
def Fresh : Request → Answer → Prop
  | compile text, .compiled result => result = Token.ofText text >>= Postfix.ofTokens
  | evaluate text b, .evaluated result => result = Formula.evaluate text b
  | display text b, .shown outcome => outcome.text = Formula.display text b
  | batch text contexts, .evaluatedAll results =>
    results.length = contexts.length ∧
      (∀ i : Nat, results[i]? = contexts[i]?.map (Formula.evaluate text)) ∧
      ∀ e, Formula.compile text = .error e → results = List.replicate contexts.length (.error e)
  | clear, .cleared => True
  | _, _ => False

theorem fresh_answer (r : Request) : r.Fresh r.answer := by
  cases r with
  | compile text => exact rfl
  | evaluate text b => exact rfl
  | display text b => exact rfl
  | batch text contexts =>
    refine ⟨List.length_map .., fun i => List.getElem?_map .., fun e he => ?_⟩
    have hall : contexts.map (Formula.evaluate text) = contexts.map fun _ => .error e :=
      List.map_congr_left fun b _ => Formula.evaluate_of_compile_eq_error he b
    rw [hall, List.map_const']
  | clear => trivial

end Request

/-- **A session answers as if it kept nothing**: every answer to requests in a row is
a fresh computation's. -/
theorem Session.answers_fresh (capacity : Nat) (requests : List Request) :
    List.Forall₂ Request.Fresh requests (((start capacity).run requests).map Reply.answer) := by
  rw [answers_run, List.forall₂_map_right_iff, List.forall₂_same]
  intro r _
  exact r.fresh_answer

end Reckoner
