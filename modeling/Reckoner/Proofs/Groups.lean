import Reckoner.Proofs.Nesting

/-! Groups in the middle of other tokens.

Parentheses keep what is inside of them apart from what is outside. What the tokens
around a group write, and whether they can be put into postfix order at all, does not
depend on what is in the group, as long as that can be put into postfix order by itself:
`around` reads it off those tokens alone, and `ofTokens_group` puts the group between
its two parts. -/
namespace Reckoner.Postfix
open Pending (release)
open Token (group)

/-- What tokens write before and after a group that stands between them. A function
that waits for the group is written right after it. -/
def around (a b : List Token) : Except FormulaError (Postfix × Postfix) := do
  let (before, waiting) ← run [] a
  let (after, stack) ← run (release waiting).2 b
  return (before, (release waiting).1 ++ after ++ (← finish stack))

theorem ofTokens_around (a b : List Token) {segments : List (List Token)}
    {sequences : List Postfix}
    (h : List.Forall₂ (fun segment sequence => ofTokens segment = .ok sequence) segments sequences) :
    ofTokens (a ++ group segments ++ b) =
      (around a b).map fun parts => parts.1 ++ sequences.flatten ++ parts.2 := by
  simp only [ofTokens, around, run_append]
  cases run [] a with
  | error e => rfl
  | ok left =>
    simp only [Except.ok_bind, run_group left.2 h, pure_bind]
    cases run (release left.2).2 b with
    | error e => rfl
    | ok right => cases hfinish : finish right.2 <;> simp [hfinish, Except.map]

/-- A function right before the group is what is written right after it. -/
theorem head?_around_call {a b : List Token} {f : Elementary} {power : Option Float}
    {before after : Postfix} (h : around (a ++ [.call f power]) b = .ok (before, after)) :
    after.head? = some (.call f power) := by
  simp only [around, run_append, run_singleton, step, Except.bind_eq_ok_iff, Except.ok_bind,
    Except.pure_eq_ok_iff] at h
  obtain ⟨_, ⟨left, -, rfl⟩, right, -, rest, -, hparts⟩ := h
  cases hparts
  rfl

/-- **A group is put into postfix order independently of what stands around it.** Tokens
with a group between them, each segment of which can be put into postfix order by itself,
succeed with the same parts or fail with the same error for every such group: what the
segments write, one after the other, stands between the two parts. If the tokens before
the group end in a function, it is the first token of the second part. -/
theorem ofTokens_group (a b : List Token) :
    ∃ ending : Except FormulaError (Postfix × Postfix),
      (∀ segments sequences,
        List.Forall₂ (fun segment sequence => ofTokens segment = .ok sequence) segments sequences →
        ofTokens (a ++ group segments ++ b) =
          ending.map fun parts => parts.1 ++ sequences.flatten ++ parts.2) ∧
      ∀ f power before after, a.getLast? = some (.call f power) → ending = .ok (before, after) →
        after.head? = some (.call f power) := by
  refine ⟨around a b, fun _ _ => ofTokens_around a b, fun f power before after hlast hending => ?_⟩
  obtain ⟨a', rfl⟩ := List.getLast?_eq_some_iff.1 hlast
  exact head?_around_call hending

/-- `2 - log(x + 1, sin y) ^ z` and `2 - log(3) ^ z`: the parts around the groups are the
same. -/
theorem ofTokens_group_log :
    ∃ before after : Postfix, after.head? = some (.call .log none) ∧
      ofTokens [.number 2, .operator .subtract, .call .log none, .symbol .leftParen,
        .var "x" none, .operator .add, .number 1, .symbol .comma, .call .sin none, .var "y" none,
        .symbol .rightParen, .operator .power, .var "z" none] =
        .ok (before ++ [.var "x" none, .number 1, .operator .add, .var "y" none, .call .sin none] ++
          after) ∧
      ofTokens [.number 2, .operator .subtract, .call .log none, .symbol .leftParen, .number 3,
        .symbol .rightParen, .operator .power, .var "z" none] = .ok (before ++ [.number 3] ++ after) := by
  obtain ⟨ending, hgroup, hcall⟩ :=
    ofTokens_group [.number 2, .operator .subtract, .call .log none] [.operator .power, .var "z" none]
  have htwo := hgroup [[.var "x" none, .operator .add, .number 1], [.call .sin none, .var "y" none]]
    [[.var "x" none, .number 1, .operator .add], [.var "y" none, .call .sin none]]
    (.cons rfl (.cons rfl .nil))
  have hone := hgroup [[.number 3]] [[.number 3]] (.cons rfl .nil)
  cases ending with
  | error e => cases htwo
  | ok parts => exact ⟨parts.1, parts.2, hcall _ _ _ _ rfl rfl, htwo, hone⟩

end Reckoner.Postfix
