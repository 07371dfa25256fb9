import Mathlib.Data.List.Forall2
import Reckoner.Proofs.Distinct
import Reckoner.Session

/-! What a session keeps.

A session keeps the formulas that were used last: `lastUsed` reads off the requests
alone which those are, and `cache_after` says that the cache holds them, in that order,
each with what it compiles to. A formula is used when it is looked up and compiles,
whatever comes of it then. What does not compile and what is not looked up leaves the
cache as it is. -/
namespace Reckoner

/-! ### Uses -/

def Formula.compiles (text : String) : Bool := (compile text).isOk

theorem Formula.compiles_iff {text : String} :
    compiles text ↔ ∃ compiled, compile text = .ok compiled := by
  rw [compiles]
  cases compile text <;> simp [Except.isOk, Except.toBool]

namespace Request

/-- The text that is looked up for a request, if one is. -/
def lookedUp? : Request → Option String
  | compile text | evaluate text _ | batch text _ => some text
  | display text _ => if Text.allBlank text then none else some text
  | clear => none

/-- The text of the formula that a request uses: one that does not compile is looked up
in vain. -/
def used? (r : Request) : Option String := r.lookedUp?.filter Formula.compiles

def clears : Request → Bool
  | clear => true
  | _ => false

theorem used?_eq_some {r : Request} {text : String} (h : r.used? = some text) :
    r.lookedUp? = some text ∧ ∃ compiled, Formula.compile text = .ok compiled := by
  rw [← Formula.compiles_iff]
  simpa [used?, Option.filter_eq_some_iff] using h

end Request

namespace Session

/-- The formulas used since all was last forgotten, once for each use and the last one
first. -/
def uses (requests : List Request) : List String :=
  (requests.reverse.takeWhile fun r => !r.clears).filterMap Request.used?

/-- The formulas used last, in the order of their last use, the last one first: all of
them, or as many as there is room for. -/
def lastUsed (capacity : Nat) (requests : List Request) : List String :=
  (uses requests).eraseDups.take (max capacity 1)

theorem uses_clear (requests : List Request) : uses (requests ++ [.clear]) = [] := by
  simp [uses, Request.clears]

theorem uses_concat {r : Request} (h : r.clears = false) (requests : List Request) :
    uses (requests ++ [r]) = r.used?.toList ++ uses requests := by
  rw [uses, uses, List.reverse_concat, List.takeWhile_cons, h]
  cases hused : r.used? <;> simp [hused]

/-! ### One request -/

theorem lookup_compile (s : Session) (text : String) :
    (s.compile text).lookup = if text ∈ s.cache.keys then .hit else .miss := by
  have hfound := @Recent.get?_isSome_iff _ _ _ s.cache text
  unfold compile
  split
  · rename_i compiled hget
    rw [if_pos (hfound.1 (by rw [hget]; rfl))]
  · rename_i hget
    rw [hget] at hfound
    rw [if_neg fun hmem => nomatch hfound.2 hmem]
    split <;> rfl

theorem cache_compile_of_ok {text : String} {compiled : Postfix}
    (h : Formula.compile text = .ok compiled) (s : Session) :
    (s.compile text).session.cache = s.cache.put text compiled := by
  unfold compile
  split
  · rename_i compiled' hfound
    -- What was found is what the text compiles to.
    cases (s.faithful _ (Recent.mem_of_get? hfound)).symm.trans h
    rfl
  · split <;> simp_all [keep]

theorem cache_compile_of_error {text : String} {e : FormulaError}
    (h : Formula.compile text = .error e) (s : Session) :
    (s.compile text).session.cache = s.cache := by
  unfold compile
  split
  · rename_i compiled' hfound
    cases (s.faithful _ (Recent.mem_of_get? hfound)).symm.trans h
  · split <;> simp_all

theorem step_of_lookedUp? {r : Request} {text : String} (h : r.lookedUp? = some text)
    (s : Session) : (s.step r).2 = (s.compile text).session := by
  cases r with
  | display text b =>
    by_cases hblank : Text.allBlank text
    · simp [Request.lookedUp?, hblank] at h
    · simp only [Request.lookedUp?, if_neg hblank, Option.some.injEq] at h
      subst h
      simp only [step, display, if_neg hblank]
  | clear => cases h
  | _ =>
    cases h
    rfl

theorem lookup_step (s : Session) (r : Request) :
    (s.step r).1.lookup = r.lookedUp?.map fun text =>
      if text ∈ s.cache.keys then .hit else .miss := by
  simp only [← lookup_compile]
  cases r with
  | display text b =>
    by_cases hblank : Text.allBlank text <;> simp [step, display, Request.lookedUp?, hblank]
  | _ => rfl

theorem size_step (s : Session) (r : Request) : (s.step r).1.size = (s.step r).2.cache.size := by
  cases r <;> rfl

/-- A formula that is used comes first, whatever it is used for. -/
theorem cache_step_of_used {r : Request} {text : String} (h : r.used? = some text)
    (s : Session) : ∃ compiled, (s.step r).2.cache = s.cache.put text compiled := by
  obtain ⟨hlooked, compiled, hcompile⟩ := Request.used?_eq_some h
  exact ⟨compiled, by rw [step_of_lookedUp? hlooked, cache_compile_of_ok hcompile]⟩

/-- A request that uses no formula leaves the cache as it is. -/
theorem cache_step_of_unused {r : Request} (hclears : r.clears = false) (h : r.used? = none)
    (s : Session) : (s.step r).2.cache = s.cache := by
  cases hlooked : r.lookedUp? with
  | none =>
    cases r with
    | display text b =>
      by_cases hblank : Text.allBlank text
      · simp [step, display, hblank]
      · simp [Request.lookedUp?, hblank] at hlooked
    | clear => cases hclears
    | _ => cases hlooked
  | some text =>
    rw [step_of_lookedUp? hlooked]
    cases hcompile : Formula.compile text with
    | error e => exact cache_compile_of_error hcompile s
    | ok compiled =>
      have hcompiles := Formula.compiles_iff.2 ⟨compiled, hcompile⟩
      simp [Request.used?, hlooked, hcompiles] at h

theorem capacity_step (s : Session) (r : Request) :
    (s.step r).2.cache.capacity = s.cache.capacity := by
  by_cases hclears : r.clears
  · cases r <;> cases hclears
    rfl
  · cases hused : r.used? with
    | none => rw [cache_step_of_unused (by simpa using hclears) hused]
    | some text =>
      obtain ⟨compiled, hput⟩ := cache_step_of_used hused s
      rw [hput, Recent.capacity_put]

/-! ### Requests in a row -/

theorem capacity_after (capacity : Nat) (requests : List Request) :
    ((start capacity).after requests).cache.capacity = max capacity 1 := by
  induction requests using List.reverseRecOn with
  | nil => rfl
  | append_singleton requests r ih =>
    rw [after_append]
    exact (capacity_step _ r).trans ih

/-- If a session keeps the formulas used last, it does so after one more request. -/
theorem keys_step {capacity : Nat} {requests : List Request} {s : Session}
    (hcapacity : s.cache.capacity = max capacity 1)
    (hkeys : s.cache.keys = lastUsed capacity requests) (r : Request) :
    (s.step r).2.cache.keys = lastUsed capacity (requests ++ [r]) := by
  by_cases hclears : r.clears
  · cases r <;> cases hclears
    rw [lastUsed, uses_clear, List.eraseDups_nil, List.take_nil]
    rfl
  · rw [Bool.not_eq_true] at hclears
    rw [lastUsed, uses_concat hclears]
    cases hused : r.used? with
    | none => rw [cache_step_of_unused hclears hused, hkeys]; rfl
    | some text =>
      obtain ⟨compiled, hput⟩ := cache_step_of_used hused s
      rw [hput, Recent.keys_put, hkeys, hcapacity, lastUsed, Option.toList_some,
        List.singleton_append, eraseDups_cons_filter, take_cons_filter_take (nodup_eraseDups _)]

/-- The cache holds the formulas used last. -/
theorem keys_after (capacity : Nat) (requests : List Request) :
    ((start capacity).after requests).cache.keys = lastUsed capacity requests := by
  induction requests using List.reverseRecOn with
  | nil => simp [lastUsed, uses, after, start, Recent.keys, Recent.empty]
  | append_singleton requests r ih =>
    rw [after_append]
    exact keys_step (capacity_after capacity requests) ih r

/-- **A session keeps the formulas used last.** After any requests the cache holds
exactly these, in the order of their last use, each with what it compiles to. The next
request finds its text if it is among them; one that uses no formula changes nothing,
and one that does puts it first, whatever it is evaluated under and whatever comes of
it. The number in the reply is that of the formulas used last then. -/
theorem cache_after (capacity : Nat) (requests : List Request) :
    let s := (start capacity).after requests
    List.Forall₂ (fun text entry => entry.1 = text ∧ Formula.compile text = .ok entry.2)
      (lastUsed capacity requests) s.cache.entries ∧
    ∀ r : Request,
      (s.step r).1.lookup = (r.lookedUp?.map fun text =>
        if text ∈ lastUsed capacity requests then .hit else .miss) ∧
      (r.clears = false → r.used? = none → (s.step r).2.cache = s.cache) ∧
      (∀ text, r.used? = some text → (s.step r).2.cache.keys =
        (text :: (lastUsed capacity requests).filter (· ≠ text)).take (max capacity 1)) ∧
      (s.step r).1.size = (lastUsed capacity (requests ++ [r])).length := by
  intro s
  have hkeys : s.cache.keys = lastUsed capacity requests := keys_after capacity requests
  have hcapacity : s.cache.capacity = max capacity 1 := capacity_after capacity requests
  refine ⟨?_, fun r => ⟨?_, fun hclears hunused => cache_step_of_unused hclears hunused s, ?_, ?_⟩⟩
  · rw [← hkeys, Recent.keys, List.forall₂_map_left_iff, List.forall₂_same]
    exact fun entry hentry => ⟨rfl, s.faithful entry hentry⟩
  · rw [lookup_step, hkeys]
  · intro text hused
    obtain ⟨compiled, hput⟩ := cache_step_of_used hused s
    rw [hput, Recent.keys_put, hkeys, hcapacity]
  · rw [size_step, ← keys_step hcapacity hkeys, Recent.keys, List.length_map, Recent.size]

/-- With room for two, `2` is dropped for `3`: looking at `1` again was a use, and so is
a batch without any bindings, but neither what does not compile nor what is blank. -/
theorem cache_after_batch :
    let requests : List Request := [.compile "1", .compile "2", .evaluate "1" .empty,
      .compile "(", .display " " .empty, .batch "3" []]
    lastUsed 2 requests = ["3", "1"] ∧
      (((start 2).after requests).step (.compile "1")).1.lookup = some .hit ∧
      (((start 2).after requests).step (.compile "2")).1.lookup = some .miss := by
  intro requests
  have hlast : lastUsed 2 requests = ["3", "1"] := by decide +kernel
  obtain ⟨-, hnext⟩ := cache_after 2 requests
  refine ⟨hlast, (hnext (.compile "1")).1.trans ?_, (hnext (.compile "2")).1.trans ?_⟩
  · rw [hlast]
    decide
  · rw [hlast]
    decide

end Session
end Reckoner
