import Reckoner.Formula
import Reckoner.Session.Recent

/-! Sessions, in which formulas are evaluated again and again.

A session keeps the formulas compiled last, so that evaluating one of them again
does not compile it again. Only what compiled is kept, and what is kept is what
compiling gives (`faithful`), so a request is answered as it would be without a
session: `answer_step`, and `answers_run` for any number of requests. A reply
also tells whether the formula was found and how many formulas are kept. -/
namespace Reckoner

structure Session where
  cache : Recent String Postfix
  faithful : ∀ entry ∈ cache.entries, Formula.compile entry.1 = .ok entry.2

inductive Request where
  | compile (text : String)
  | evaluate (text : String) (b : Bindings)
  | display (text : String) (b : Bindings)
  /-- One formula under many bindings. -/
  | batch (text : String) (contexts : List Bindings)
  /-- Forget all formulas. -/
  | clear

inductive Answer where
  | compiled (result : Except FormulaError Postfix)
  | evaluated (result : Except FormulaError Float)
  | shown (outcome : Outcome)
  | evaluatedAll (results : List (Except FormulaError Float))
  | cleared

inductive Lookup where
  | hit
  | miss
deriving DecidableEq, Repr

structure Reply where
  answer : Answer
  /-- How the formula was looked up, if one was. -/
  lookup : Option Lookup
  /-- The number of formulas kept after the request. -/
  size : Nat

/-- The answer to a request outside of any session. -/
def Request.answer : Request → Answer
  | compile text => .compiled (Formula.compile text)
  | evaluate text b => .evaluated (Formula.evaluate text b)
  | display text b => .shown (Formula.outcome text b)
  | batch text contexts => .evaluatedAll (contexts.map (Formula.evaluate text))
  | clear => .cleared

namespace Session

def defaultCapacity : Nat := 100

/-- A session that keeps up to `capacity` formulas, and one at least. -/
def start (capacity : Nat) : Session := ⟨.empty capacity, fun _ h => nomatch h⟩

/-- The formula, compiled, is the one used last. -/
def keep (s : Session) (text : String) (compiled : Postfix)
    (h : Formula.compile text = .ok compiled) : Session where
  cache := s.cache.put text compiled
  faithful entry hentry := by
    rcases Recent.mem_put hentry with rfl | hold
    · exact h
    · exact s.faithful entry hold

def clear (s : Session) : Session := ⟨s.cache.clear, fun _ h => nomatch h⟩

/-- A formula as a session compiles it, and the session after that. -/
structure Compiled where
  result : Except FormulaError Postfix
  lookup : Lookup
  session : Session

/-- The formula from the cache, where it becomes the one used last; or else
compiled now, and kept if it compiles. -/
def compile (s : Session) (text : String) : Compiled :=
  match hfound : s.cache.get? text with
  | some compiled =>
    ⟨.ok compiled, .hit, s.keep text compiled (s.faithful _ (Recent.mem_of_get? hfound))⟩
  | none =>
    match hcompile : Formula.compile text with
    | .ok compiled => ⟨.ok compiled, .miss, s.keep text compiled hcompile⟩
    | .error e => ⟨.error e, .miss, s⟩

/-- The reply to a request that needs a formula compiled. -/
def replyWith (s : Session) (text : String) (answer : Except FormulaError Postfix → Answer) :
    Reply × Session :=
  let c := s.compile text
  (⟨answer c.result, some c.lookup, c.session.cache.size⟩, c.session)

/-- What a session shows of a formula, and the session after that. -/
structure Displayed where
  outcome : Outcome
  /-- How the formula was looked up, if it was. -/
  lookup : Option Lookup
  session : Session

/-- A blank formula is shown without being looked up. -/
def display (s : Session) (text : String) (b : Bindings) : Displayed :=
  if Text.allBlank text then ⟨.blank, none, s⟩
  else
    let c := s.compile text
    ⟨.ofResult (c.result >>= (·.value b)), some c.lookup, c.session⟩

/-- The reply to a request, and the session after it. -/
def step (s : Session) : Request → Reply × Session
  | .compile text => s.replyWith text .compiled
  | .evaluate text b => s.replyWith text fun compiled => .evaluated (compiled >>= (·.value b))
  | .display text b =>
    let d := s.display text b
    (⟨.shown d.outcome, d.lookup, d.session.cache.size⟩, d.session)
  | .batch text contexts =>
    s.replyWith text fun compiled => .evaluatedAll (contexts.map fun b => compiled >>= (·.value b))
  | .clear => (⟨.cleared, none, s.clear.cache.size⟩, s.clear)

/-- The replies to requests in a row. -/
def run (s : Session) : List Request → List Reply
  | [] => []
  | r :: rest => (s.step r).1 :: run (s.step r).2 rest

/-- The session after requests in a row. -/
def after (s : Session) : List Request → Session
  | [] => s
  | r :: rest => after (s.step r).2 rest

theorem after_append (s : Session) (a b : List Request) :
    s.after (a ++ b) = (s.after a).after b := by
  induction a generalizing s with
  | nil => rfl
  | cons r rest ih => exact ih _

/-! ### Answers do not depend on the session -/

theorem result_compile (s : Session) (text : String) :
    (s.compile text).result = Formula.compile text := by
  unfold compile
  split
  · rename_i compiled hfound
    exact (s.faithful _ (Recent.mem_of_get? hfound)).symm
  · split <;> simp_all

theorem outcome_display (s : Session) (text : String) (b : Bindings) :
    (s.display text b).outcome = Formula.outcome text b := by
  unfold display Formula.outcome
  split
  · rfl
  · simp only [result_compile]
    rfl

theorem answer_step (s : Session) (r : Request) : (s.step r).1.answer = r.answer := by
  cases r with
  | display text b => simp only [step, outcome_display, Request.answer]
  | clear => rfl
  | _ => simp only [step, replyWith, result_compile]; rfl

theorem answers_run (s : Session) (requests : List Request) :
    (s.run requests).map Reply.answer = requests.map Request.answer := by
  induction requests generalizing s with
  | nil => rfl
  | cons r rest ih => simp only [run, List.map_cons, answer_step, ih]

end Session
end Reckoner
