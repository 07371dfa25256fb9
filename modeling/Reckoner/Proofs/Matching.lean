import Mathlib.Tactic.MkIffOfInductiveProp
import Reckoner.Proofs.Nesting
import Reckoner.Proofs.Tally

/-! Parentheses that match.

Nothing but a parenthesis or a comma can keep tokens from being put into postfix order,
and whether one does can be told by counting: `parens` is the tally of how many
parentheses are open. A closing parenthesis and a comma are out of place where none is,
and the first token out of place is what the conversion fails with. If there is none,
the parentheses still open at the end are (`ofTokens_classified`). -/
namespace Reckoner

namespace Token

/-- How many more parentheses are open after a token. -/
def opening : Token → Int
  | symbol .leftParen => 1
  | symbol .rightParen => -1
  | _ => 0

/-- The token may not stand where so many parentheses are open. -/
@[mk_iff]
inductive Unenclosed : Int → Token → FormulaError → Prop where
  | comma : Unenclosed 0 (symbol .comma) .misplacedSeparator
  | rightParen : Unenclosed 0 (symbol .rightParen) .mismatchedParentheses

/-- The parentheses that are open. -/
def parens : Tally Token FormulaError := ⟨opening, Unenclosed⟩

end Token

namespace Postfix
open Token (parens)

theorem counts_deepen : parens.Counts deepen where
  error_iff n t e := by
    simp only [parens, Token.unenclosed_iff]
    cases t with
    | symbol s =>
      cases s with
      | comma | rightParen => by_cases hn : n = 0 <;> simp [deepen, hn, eq_comm]
      | operator o | leftParen => simp [deepen]
    | _ => simp [deepen]
  weight n t m h := by
    simp only [parens]
    cases t with
    | symbol s =>
      cases s with
      | comma | rightParen =>
        by_cases hn : n = 0
        · simp [deepen, hn] at h
        · simp only [deepen, if_neg hn, Except.ok.injEq] at h
          simp only [Token.opening]
          omega
      | operator o | leftParen =>
        cases h
        simp [Token.opening]
    | _ =>
      cases h
      simp [Token.opening]

theorem nesting_eq_foldlM (depth : Nat) (tokens : List Token) :
    nesting depth tokens = tokens.foldlM deepen depth := by
  induction tokens generalizing depth with
  | nil => rfl
  | cons t rest ih => simp only [nesting, List.foldlM_cons, ih]

/-- **Tokens can be put into postfix order unless parentheses or commas are in the way.**
The conversion fails with the first comma outside of all parentheses or the first
parenthesis that closes none, whichever comes first; or, where there is neither, with
parentheses that are open at the end. In every other case it succeeds. -/
theorem ofTokens_classified (tokens : List Token) :
    (∀ e, ofTokens tokens = .error e ↔
      parens.FirstOffence tokens e ∨
        parens.Clean tokens ∧ 0 < parens.total tokens ∧ e = .mismatchedParentheses) ∧
    ((∃ sequence, ofTokens tokens = .ok sequence) ↔
      parens.Clean tokens ∧ parens.total tokens = 0) := by
  simp only [ofTokens_eq_error_iff, ofTokens_isOk_iff, nesting_eq_foldlM,
    counts_deepen.foldlM_eq_error_iff, counts_deepen.foldlM_eq_ok_iff]
  refine ⟨fun e => or_congr_right ?_, and_congr_right fun _ => eq_comm⟩
  constructor
  · rintro ⟨depth, ⟨hclean, htotal⟩, hdepth, rfl⟩
    exact ⟨hclean, by omega, rfl⟩
  · rintro ⟨hclean, htotal, rfl⟩
    exact ⟨_, ⟨hclean, Int.toNat_of_nonneg (by omega)⟩, by omega, rfl⟩

/-- Of a comma and a parenthesis out of place the one counts that comes first. -/
example :
    ofTokens [.number 1, .symbol .comma, .symbol .rightParen] = .error .misplacedSeparator ∧
      ofTokens [.number 1, .symbol .rightParen, .symbol .comma] = .error .mismatchedParentheses :=
  ⟨rfl, rfl⟩

end Postfix
end Reckoner
