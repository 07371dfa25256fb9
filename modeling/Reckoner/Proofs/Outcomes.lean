import Reckoner.Proofs.LongestMatch
import Reckoner.Proofs.NumberWriting
import Reckoner.Session

/-! What is shown of a formula.

A text is blank exactly if it has no tokens (`ofText_eq_nil_iff`), so what is asked to be
entered is what there is nothing to evaluate of. No number is written with white space
(`isMark_write`), and both messages have some: what is shown tells which of the three outcomes
it is. `display_shown` says so of a formula by itself and of one that a session is asked for. -/
namespace Reckoner

/-! ### Blank texts -/

namespace Token

/-- Pieces that give no token are white space. -/
theorem isBlank_of_ofPieces {pieces : List Piece} (hpieces : Piece.Munched pieces)
    (hnone : ofPieces pieces = []) : ∀ c ∈ pieces.flatMap Piece.text, Text.isBlank c := by
  induction pieces with
  | nil => nofun
  | cons piece rest ih =>
    cases piece with
    | blank c =>
      rw [List.flatMap_cons]
      exact List.forall_mem_append.2
        ⟨List.forall_mem_singleton.2 hpieces.1, ih hpieces.2 hnone⟩
    | lexeme l => cases hnone

/-- A text has no tokens exactly if it is blank. -/
theorem ofText_eq_nil_iff {text : String} : ofText text = .ok [] ↔ Text.allBlank text := by
  rw [Text.allBlank, List.all_eq_true]
  constructor
  · intro h
    obtain ⟨pieces, hcut, hnone⟩ := Except.map_eq_ok_iff.1 h
    rw [← Piece.text_cut hcut]
    exact isBlank_of_ofPieces (Piece.munched_cut hcut) hnone
  · intro h
    have hread := read_blanks h []
    rwa [List.append_nil] at hread

end Token

/-- What has no tokens has no value. -/
theorem Formula.not_allBlank_of_evaluate {text : String} {b : Bindings} {v : Float}
    (h : evaluate text b = .ok v) : Text.allBlank text = false := by
  rw [← Bool.not_eq_true, ← Token.ofText_eq_nil_iff]
  intro hnil
  obtain ⟨tokens, sequence, htokens, hsequence, hvalue⟩ := evaluate_eq_ok_iff_stages.1 h
  obtain rfl : [] = tokens := Except.ok.inj (hnil.symm.trans htokens)
  cases hsequence
  cases hvalue

/-! ### Written numbers and messages -/

theorem write_ne_of_mem {message : String} (h : ' ' ∈ message.toList) (v : Float) :
    Style.result.write v ≠ message := by
  have hinfinity : ∀ c ∈ Style.result.infinity.toList, Numeral.IsMark c :=
    Numeral.isMark_of_all (by decide)
  rintro rfl
  exact absurd (Style.result.isMark_write hinfinity v ' ' h).1 (by decide)

namespace Formula

/-- What is shown of a formula tells what became of it. -/
structure Shown (text : String) (b : Bindings) (shown : String) : Prop where
  blank : shown = Outcome.blank.text ↔ Token.ofText text = .ok []
  failure : shown = Outcome.failure.text ↔
    Text.allBlank text = false ∧ ∃ e, evaluate text b = .error e
  value : shown ≠ Outcome.blank.text → shown ≠ Outcome.failure.text →
    ∃ v, evaluate text b = .ok v ∧ shown = Style.result.write v

theorem outcome_eq_blank {text : String} (h : Text.allBlank text) (b : Bindings) :
    outcome text b = .blank := if_pos h

theorem outcome_of_evaluate {text : String} {b : Bindings} {v : Float}
    (h : evaluate text b = .ok v) : outcome text b = .value v := by
  rw [outcome, not_allBlank_of_evaluate h, h, if_neg Bool.false_ne_true, Outcome.ofResult]

theorem shown_outcome (text : String) (b : Bindings) : Shown text b (outcome text b).text := by
  have hmessages : Outcome.blank.text ≠ Outcome.failure.text := by decide
  cases hblank : Text.allBlank text with
  | true =>
    have htokens : Token.ofText text = .ok [] := Token.ofText_eq_nil_iff.2 hblank
    rw [outcome_eq_blank hblank]
    exact ⟨iff_of_true rfl htokens, iff_of_false hmessages (by simp [hblank]),
      fun hne => absurd rfl hne⟩
  | false =>
    have htokens : Token.ofText text ≠ .ok [] := by
      rw [Ne, Token.ofText_eq_nil_iff, hblank]
      exact Bool.false_ne_true
    cases hvalue : evaluate text b with
    | error e =>
      rw [outcome, hblank, hvalue, if_neg Bool.false_ne_true, Outcome.ofResult]
      exact ⟨iff_of_false hmessages.symm htokens, iff_of_true rfl ⟨hblank, e, hvalue⟩,
        fun _ hne => absurd rfl hne⟩
    | ok v =>
      rw [outcome_of_evaluate hvalue]
      exact ⟨iff_of_false (write_ne_of_mem (by decide) v) htokens,
        iff_of_false (write_ne_of_mem (by decide) v) (by simp [hvalue]),
        fun _ _ => ⟨v, hvalue, rfl⟩⟩

/-- **What is shown tells the three outcomes apart**: the request to enter a formula is shown
of the texts without tokens, which are the blank ones; the refusal of those that are not blank
and have no value; and of all others it is their value, which is written like neither. In a
session it is the same after any requests. -/
theorem display_shown (text : String) (b : Bindings) :
    (Text.allBlank text ↔ Token.ofText text = .ok []) ∧
    Shown text b (display text b) ∧
    (∀ v, Style.result.write v ≠ Outcome.blank.text ∧
      Style.result.write v ≠ Outcome.failure.text) ∧
    ∀ capacity requests, ∃ outcome : Outcome,
      (((Session.start capacity).after requests).step (.display text b)).1.answer =
        .shown outcome ∧ Shown text b outcome.text :=
  ⟨Token.ofText_eq_nil_iff.symm, shown_outcome text b,
    fun v => ⟨write_ne_of_mem (by decide) v, write_ne_of_mem (by decide) v⟩,
    fun capacity requests => ⟨outcome text b,
      ((Session.start capacity).after requests).answer_step (.display text b),
      shown_outcome text b⟩⟩

/-- A text that is not blank and compiles to nothing. -/
theorem display_shown_parens :
    compile "( )" = .ok [] ∧ display "( )" .empty = "Invalid formula" ∧
      display " \u2003" .empty = "Enter a formula to see the result." := by
  obtain ⟨-, hshown, -⟩ := display_shown "( )" .empty
  obtain ⟨hblank, hshown', -⟩ := display_shown " \u2003" .empty
  exact ⟨rfl, hshown.failure.2 ⟨by decide, .leftoverValues 0, rfl⟩,
    hshown'.blank.2 (hblank.1 (by decide))⟩

end Formula
end Reckoner
