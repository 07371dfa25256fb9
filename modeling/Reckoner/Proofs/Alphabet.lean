import Reckoner.Proofs.Boundary
import Reckoner.Session

/-! The characters of formulas.

`Formula.admits` says which characters a formula may have. A text can be read exactly if it
has no others, and else the first one of them is what is wrong with it
(`ofText_eq_error_iff`), whatever stands around it. Reading comes before all else, so no
other error is reported of such a text, whatever else is wrong with it and whatever a session
has kept: `refused_by_character`. -/
namespace Reckoner

namespace Formula

/-- White space, letters, digits and points, and the symbols. -/
def admits (c : Char) : Bool :=
  Text.isBlank c || c.isAlpha || c.isDigit || c == '.' || "+-*/^(),".toList.contains c

/-- The first character of a text that a formula may not have. -/
def firstForeign? (cs : List Char) : Option Char := cs.find? fun c => !admits c

theorem firstForeign?_cons (c : Char) (cs : List Char) :
    firstForeign? (c :: cs) = if admits c then firstForeign? cs else some c := by
  cases hc : admits c <;> simp [firstForeign?, hc]

theorem firstForeign?_eq_none_iff {cs : List Char} :
    firstForeign? cs = none ↔ ∀ c ∈ cs, admits c := by
  simp [firstForeign?]

end Formula

/-! ### Where reading stops -/

theorem Symbol.isSome_ofChar? (c : Char) :
    (Symbol.ofChar? c).isSome = "+-*/^(),".toList.contains c := by
  have hchars : "+-*/^(),".toList = all.map char := by decide
  rw [hchars, ofChar?, List.isSome_find?, List.contains_eq_any_beq, List.any_map]
  simp [Function.comp_def, Bool.beq_comm]

theorem Lexeme.isSome_start? (c : Char) :
    (start? c).isSome = (isNumeric c || c.isAlpha || (Symbol.ofChar? c).isSome) := by
  unfold start?
  cases isNumeric c <;> cases c.isAlpha <;> simp

namespace Piece
open Formula (admits firstForeign?)

/-- The characters that are admitted are white space or begin a lexeme. -/
theorem admits_eq (c : Char) : admits c = (Text.isBlank c || (Lexeme.start? c).isSome) := by
  rw [admits, Lexeme.isSome_start?, Symbol.isSome_ofChar?, isNumeric]
  ac_rfl

/-- What is admitted begins a piece. -/
theorem exists_start {c : Char} (h : admits c) : ∃ piece, start c = .ok piece := by
  rw [admits_eq] at h
  rw [start]
  cases hblank : Text.isBlank c with
  | true => exact ⟨_, rfl⟩
  | false =>
    rw [hblank, Bool.false_or, Option.isSome_iff_exists] at h
    obtain ⟨l, hl⟩ := h
    exact ⟨lexeme l, by rw [hl]; rfl⟩

theorem start_of_not_admits {c : Char} (h : ¬ admits c) :
    start c = .error (.invalidCharacter c) := by
  rw [admits_eq, Bool.or_eq_true, not_or, Bool.not_eq_true, Option.not_isSome_iff_eq_none] at h
  rw [start, h.1, h.2]
  rfl

/-- What is not admitted prolongs no piece either. -/
theorem closing_of_not_admits {c : Char} (h : ¬ admits c) : Lexeme.Closing c := by
  rw [admits_eq, Lexeme.isSome_start?] at h
  simp only [Bool.or_eq_true, not_or, Bool.not_eq_true] at h
  obtain ⟨-, ⟨hnumeric, halpha⟩, hsymbol⟩ := h
  refine Lexeme.closing_iff.2 ⟨hnumeric, halpha, fun hcaret => ?_⟩
  rw [hcaret] at hsymbol
  cases hsymbol

theorem cutFrom_eq_error_iff {piece : Piece} {cs : List Char} {e : FormulaError} :
    cutFrom piece cs = .error e ↔ ∃ c ∈ firstForeign? cs, e = .invalidCharacter c := by
  induction cs generalizing piece with
  | nil => simp [cutFrom, firstForeign?]
  | cons c cs ih =>
    rw [cutFrom_cons_eq_error_iff, Formula.firstForeign?_cons]
    by_cases hc : admits c
    · obtain ⟨next, hnext⟩ := exists_start hc
      rw [if_pos hc]
      cases piece.extend? c <;> simp [hnext, ih]
    · rw [if_neg hc, extend?_of_closing (closing_of_not_admits hc), start_of_not_admits hc]
      simp [eq_comm]

theorem cut_eq_error_iff {cs : List Char} {e : FormulaError} :
    cut cs = .error e ↔ ∃ c ∈ firstForeign? cs, e = .invalidCharacter c := by
  cases cs with
  | nil => simp [cut, firstForeign?]
  | cons c cs =>
    rw [cut, Formula.firstForeign?_cons]
    by_cases hc : admits c
    · obtain ⟨piece, hpiece⟩ := exists_start hc
      rw [if_pos hc, hpiece, Except.ok_bind, cutFrom_eq_error_iff]
    · rw [if_neg hc, start_of_not_admits hc]
      simp [eq_comm]

end Piece

namespace Token
open Formula (admits firstForeign?)

/-- The first character that is not admitted is what is wrong with a text. -/
theorem ofText_eq_error_iff {text : String} {e : FormulaError} :
    ofText text = .error e ↔ ∃ c ∈ firstForeign? text.toList, e = .invalidCharacter c := by
  rw [ofText, Except.map_eq_error_iff, Piece.cut_eq_error_iff]

theorem ofText_isOk_iff {text : String} :
    (∃ tokens, ofText text = .ok tokens) ↔ ∀ c ∈ text.toList, admits c := by
  rw [← Formula.firstForeign?_eq_none_iff]
  cases hforeign : firstForeign? text.toList with
  | none =>
    cases hread : ofText text with
    | ok tokens => simp
    | error e =>
      obtain ⟨c, hc, -⟩ := ofText_eq_error_iff.1 hread
      rw [hforeign] at hc
      cases hc
  | some c =>
    have hread := ofText_eq_error_iff.2 ⟨c, hforeign, rfl⟩
    simp [hread]

end Token

/-! ### What is said of such a text -/

/-- **A text can be read exactly if all its characters are admitted, and else the first one
that is not is reported**, whatever stands before and after it: by whoever reads the text, asks
for its variables, compiles it or evaluates it under any bindings, and by a session in any
state, of each of many evaluations too. -/
theorem Formula.refused_by_character (text : String) :
    ((∃ tokens, Token.ofText text = .ok tokens) ↔ ∀ c ∈ text.toList, admits c) ∧
    ∀ c, firstForeign? text.toList = some c →
      Token.ofText text = .error (.invalidCharacter c) ∧
      freeVariables text = .error (.invalidCharacter c) ∧
      (∀ b, evaluate text b = .error (.invalidCharacter c)) ∧
      ∀ s : Session,
        (s.step (.compile text)).1.answer = .compiled (.error (.invalidCharacter c)) ∧
        (∀ b, (s.step (.evaluate text b)).1.answer = .evaluated (.error (.invalidCharacter c))) ∧
        ∀ contexts, (s.step (.batch text contexts)).1.answer =
          .evaluatedAll (List.replicate contexts.length (.error (.invalidCharacter c))) := by
  refine ⟨Token.ofText_isOk_iff, fun c hc => ?_⟩
  have hread : Token.ofText text = .error (.invalidCharacter c) :=
    Token.ofText_eq_error_iff.2 ⟨c, hc, rfl⟩
  have hcompile : compile text = .error (.invalidCharacter c) := by
    rw [compile, hread]
    rfl
  have hevaluate : ∀ b, evaluate text b = .error (.invalidCharacter c) := by
    intro b
    rw [evaluate, hcompile]
    rfl
  have hvariables : freeVariables text = .error (.invalidCharacter c) := by
    rw [freeVariables, hread]
    rfl
  refine ⟨hread, hvariables, hevaluate, fun s => ⟨?_, fun b => ?_, fun contexts => ?_⟩⟩
  · rw [Session.answer_step, Request.answer, hcompile]
  · rw [Session.answer_step, Request.answer, hevaluate]
  · rw [Session.answer_step, Request.answer, funext hevaluate, List.map_const']

/-- Nothing but `é` is reported of `x)(, é log + #`, also by a session that has kept a
formula. -/
theorem Formula.refused_by_character_first :
    firstForeign? "x)(, é log + #".toList = some 'é' ∧
      evaluate "x)(, é log + #" .empty = .error (.invalidCharacter 'é') ∧
      (((Session.start 1).after [.compile "x"]).step
        (.batch "x)(, é log + #" [.empty, .bind .empty "x" "1"])).1.answer =
          .evaluatedAll [.error (.invalidCharacter 'é'), .error (.invalidCharacter 'é')] := by
  have hforeign : firstForeign? "x)(, é log + #".toList = some 'é' := by decide
  obtain ⟨-, -, hevaluate, hsession⟩ := (refused_by_character "x)(, é log + #").2 'é' hforeign
  obtain ⟨-, -, hbatch⟩ := hsession ((Session.start 1).after [.compile "x"])
  exact ⟨hforeign, hevaluate _, hbatch _⟩

end Reckoner
