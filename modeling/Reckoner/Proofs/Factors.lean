import Reckoner.Formula
import Reckoner.Proofs.LongestMatch

/-! Products written with and without their signs.

The factors of a product may stand side by side, and a `*` is read between them. A text is
spelled out when each such `*` is written where it is read (`Formula.spellOut`). It is read
as before then, and nothing that is not written is read into it any more: `spellOut_same`.

A `*` that is written ends the lexeme before it and goes into no other, so the lexemes of the
text stay, and each is still the longest one at its place (`munched_spellOut`). -/
namespace Reckoner

/-- The sign of a product. -/
def Lexeme.times : Lexeme := .symbol (.operator .multiply)

namespace Piece

/-- The pieces with a `*` after each lexeme that is multiplied by what comes right after it. -/
def spellOut : List Piece → List Piece
  | [] => []
  | blank c :: rest => blank c :: spellOut rest
  | lexeme l :: rest =>
    lexeme l :: ((if l.multiplies (first? rest) then [lexeme .times] else []) ++ spellOut rest)

/-- The tokens of the lexemes, and no others. -/
def literal : List Piece → List Token
  | [] => []
  | blank _ :: rest => literal rest
  | lexeme l :: rest => l.token :: literal rest

theorem first?_spellOut (pieces : List Piece) : first? (spellOut pieces) = first? pieces := by
  cases pieces with
  | nil => rfl
  | cons piece rest => cases piece <;> rfl

theorem closing_times : Lexeme.Closing '*' := Lexeme.closing_iff.2 (by decide)

/-- The lexemes are the longest ones also where every `*` is written. -/
theorem munched_spellOut {pieces : List Piece} (h : Munched pieces) :
    Munched (spellOut pieces) := by
  induction pieces with
  | nil => trivial
  | cons piece rest ih =>
    cases piece with
    | blank c => exact ⟨h.1, ih h.2⟩
    | lexeme l =>
      have hformed : (lexeme l).Formed := h.1.formed
      have hrest := ih h.2
      rw [spellOut]
      split
      · have htimes : Munched (lexeme .times :: spellOut rest) :=
          Formed.munched_cons (Lexeme.Formed.symbol _) hrest fun _ _ => rfl
        refine hformed.munched_cons htimes fun c hc => ?_
        cases hc
        exact extend?_of_closing closing_times _
      · refine hformed.munched_cons hrest fun c hc => ?_
        -- What comes right after the lexeme is what did before.
        rw [List.nil_append, ← first?_eq_head? hrest, first?_spellOut, first?_eq_head? h.2] at hc
        exact Option.map_eq_none_iff.2 ((Lexeme.longestOf_iff h.1.formed _).1 h.1 c hc)

/-- With every `*` written no further one is read. -/
theorem ofPieces_spellOut (pieces : List Piece) :
    Token.ofPieces (spellOut pieces) = literal (spellOut pieces) := by
  induction pieces with
  | nil => rfl
  | cons piece rest ih =>
    cases piece with
    | blank c => exact ih
    | lexeme l =>
      rw [spellOut]
      split
      · have hnext : l.tokens (some '*') = [l.token] := by
          rw [Lexeme.tokens, l.not_multiplies_of_closing closing_times (by decide)]
          rfl
        show l.tokens (some '*') ++ (Lexeme.times.tokens _ ++ Token.ofPieces (spellOut rest)) = _
        rw [hnext, Lexeme.times, Lexeme.tokens_symbol, ih]
        rfl
      · rename_i hnone
        show l.tokens (first? (spellOut rest)) ++ Token.ofPieces (spellOut rest) = _
        rw [first?_spellOut, Lexeme.tokens, if_neg hnone, ih]
        rfl

/-- The `*` that are written are those that were read. -/
theorem literal_spellOut (pieces : List Piece) :
    literal (spellOut pieces) = Token.ofPieces pieces := by
  induction pieces with
  | nil => rfl
  | cons piece rest ih =>
    cases piece with
    | blank c => exact ih
    | lexeme l =>
      rw [spellOut, Token.ofPieces, Lexeme.tokens, ← ih]
      split <;> rfl

end Piece

namespace Formula

/-- The text with every `*` written that is read between two of its characters. -/
def spellOut (text : String) : Except FormulaError String :=
  (Piece.cut text.toList).map fun pieces =>
    String.ofList ((Piece.spellOut pieces).flatMap Piece.text)

theorem freeVariables_of_ofText {text other : String}
    (h : Token.ofText text = Token.ofText other) : freeVariables text = freeVariables other := by
  rw [freeVariables, h, freeVariables]

theorem compile_of_ofText {text other : String} (h : Token.ofText text = Token.ofText other) :
    compile text = compile other := by
  rw [compile, h, compile]

/-- **A text that is spelled out means the same**, and nothing is read into it that is not
written: its tokens are its own lexemes' and the text's. -/
theorem spellOut_same {text : String} {tokens : List Token} (h : Token.ofText text = .ok tokens) :
    ∃ spelled, spellOut text = .ok spelled ∧ Token.ofText spelled = .ok tokens ∧
      (∃ pieces, Piece.IsCut spelled.toList pieces ∧ Piece.literal pieces = tokens) ∧
      compile spelled = compile text ∧ (∀ b, evaluate spelled b = evaluate text b) ∧
      freeVariables spelled = freeVariables text := by
  obtain ⟨pieces, hcut, rfl⟩ := Token.ofText_eq_ok_iff.1 h
  have hmunched := Piece.munched_spellOut (Piece.munched_cut hcut)
  have hliteral := Piece.literal_spellOut pieces
  have hspelled : Token.ofText (String.ofList ((Piece.spellOut pieces).flatMap Piece.text)) =
      .ok (Token.ofPieces pieces) := by
    rw [Token.ofText_eq_ok_iff, String.toList_ofList]
    exact ⟨_, Piece.cut_of_munched hmunched, (Piece.ofPieces_spellOut pieces).trans hliteral⟩
  have hsame := hspelled.trans h.symm
  have hcompile := compile_of_ofText hsame
  refine ⟨_, ?_, hspelled, ⟨Piece.spellOut pieces, ⟨?_, hmunched⟩, hliteral⟩, hcompile,
    fun b => ?_, freeVariables_of_ofText hsame⟩
  · rw [spellOut, hcut]
    rfl
  · rw [String.toList_ofList]
  · rw [evaluate, hcompile, evaluate]

/-- After a power that has no digits, and after a function that has no parentheses. -/
theorem spellOut_same_power :
    spellOut "3x^(2)sin2" = .ok "3*x^*(2)sin*2" ∧
      Token.ofText "3*x^*(2)sin*2" = Token.ofText "3x^(2)sin2" := by
  have htokens : Token.ofText "3x^(2)sin2" = .ok [.number 3, .operator .multiply,
      .var "x" (some Binary64.nan), .operator .multiply, .symbol .leftParen, .number 2,
      .symbol .rightParen, .call .sin none, .operator .multiply, .number 2] := by decide +kernel
  obtain ⟨spelled, hspelled, hread, -⟩ := spellOut_same htokens
  have htext : spellOut "3x^(2)sin2" = .ok "3*x^*(2)sin*2" := by decide +kernel
  cases htext.symm.trans hspelled
  exact ⟨htext, hread.trans htokens.symm⟩

end Formula
end Reckoner
