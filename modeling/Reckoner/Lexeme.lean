import Reckoner.Result
import Reckoner.Token
import Reckoner.Number.Numeral

/-! Cutting a text into lexemes and white space.

A lexeme is a run of digits and points, a run of letters with the power that
follows a `^` right after it, or one symbol. `Lexeme.extend?` says which character
prolongs a lexeme and `Lexeme.start?` which one begins one. `Piece.cut` goes
through a text with the piece that is open, and prolongs that piece while it can,
so that every lexeme is as long as it may be. The pieces are the whole text
(`Piece.text_cut`), and the cut fails with the first character that begins no
piece. -/
namespace Reckoner

/-- A digit or a point. -/
def isNumeric (c : Char) : Bool := c.isDigit || c == '.'

inductive Lexeme where
  /-- Digits and points. -/
  | number (run : String)
  /-- Letters, and the digits and points after a `^`, of which there may be none. -/
  | word (name : String) (power : Option String)
  | symbol (s : Symbol)
deriving DecidableEq, Repr

namespace Lexeme

def text : Lexeme → List Char
  | number run => run.toList
  | word name none => name.toList
  | word name (some run) => name.toList ++ '^' :: run.toList
  | symbol s => [s.char]

/-- The lexeme prolonged by a character, if it can be. -/
def extend? : Lexeme → Char → Option Lexeme
  | number run, c => if isNumeric c then some (number (run.push c)) else none
  | word name none, c =>
    if c.isAlpha then some (word (name.push c) none)
    else if c = '^' then some (word name (some ""))
    else none
  | word name (some run), c => if isNumeric c then some (word name (some (run.push c))) else none
  | symbol _, _ => none

/-- The lexeme a character begins, if it begins one. -/
def start? (c : Char) : Option Lexeme :=
  if isNumeric c then some (number (String.singleton c))
  else if c.isAlpha then some (word (String.singleton c) none)
  else (Symbol.ofChar? c).map symbol

/-- A run of digits and points is read as the numeral it begins with; one that
holds no numeral, such as the empty run, is not a number. -/
def token : Lexeme → Token
  | number run => .number (readNumber run)
  | word name power => .ofName name (power.map readNumber)
  | symbol s => .symbol s

end Lexeme

inductive Piece where
  | blank (c : Char)
  | lexeme (l : Lexeme)
deriving DecidableEq, Repr

namespace Piece

def text : Piece → List Char
  | blank c => [c]
  | lexeme l => l.text

/-- The piece a character begins. -/
def start (c : Char) : Except FormulaError Piece :=
  if Text.isBlank c then .ok (blank c)
  else match Lexeme.start? c with
    | some l => .ok (lexeme l)
    | none => .error (.invalidCharacter c)

/-- The piece prolonged by a character, if it can be. -/
def extend? : Piece → Char → Option Piece
  | blank _, _ => none
  | lexeme l, c => (l.extend? c).map lexeme

/-- The pieces of a text, of whose first piece `piece` has been read. -/
def cutFrom (piece : Piece) : List Char → Except FormulaError (List Piece)
  | [] => .ok [piece]
  | c :: rest =>
    match piece.extend? c with
    | some longer => cutFrom longer rest
    | none => do
      let next ← start c
      let pieces ← cutFrom next rest
      return piece :: pieces

/-- The pieces of a text. -/
def cut : List Char → Except FormulaError (List Piece)
  | [] => .ok []
  | c :: rest => do cutFrom (← start c) rest

/-! ### The pieces are the whole text -/

theorem text_extend? {l longer : Lexeme} {c : Char} (h : l.extend? c = some longer) :
    longer.text = l.text ++ [c] := by
  unfold Lexeme.extend? at h
  split at h
  · split at h <;> cases h
    simp [Lexeme.text]
  · split at h
    · cases h
      simp [Lexeme.text]
    · split at h <;> cases h
      simp_all [Lexeme.text]
  · split at h <;> cases h
    simp [Lexeme.text]
  · cases h

theorem text_start? {l : Lexeme} {c : Char} (h : Lexeme.start? c = some l) : l.text = [c] := by
  unfold Lexeme.start? at h
  split at h
  · cases h
    simp [Lexeme.text]
  · split at h
    · cases h
      simp [Lexeme.text]
    · obtain ⟨s, hs, rfl⟩ := Option.map_eq_some_iff.1 h
      simp [Lexeme.text, Symbol.ofChar?_eq_some_iff.1 hs]

theorem text_start {piece : Piece} {c : Char} (h : start c = .ok piece) : piece.text = [c] := by
  unfold start at h
  split at h
  · cases h
    rfl
  · split at h
    · cases h
      exact text_start? ‹_›
    · cases h

/-- A piece is prolonged while it can be, and then the next one begins. -/
theorem cutFrom_cons_eq_ok_iff {piece : Piece} {c : Char} {rest : List Char} {pieces : List Piece} :
    cutFrom piece (c :: rest) = .ok pieces ↔
      (∃ longer, piece.extend? c = some longer ∧ cutFrom longer rest = .ok pieces) ∨
        piece.extend? c = none ∧ ∃ next more, start c = .ok next ∧
          cutFrom next rest = .ok more ∧ piece :: more = pieces := by
  rw [cutFrom]
  cases piece.extend? c <;> simp

theorem cutFrom_cons_eq_error_iff {piece : Piece} {c : Char} {rest : List Char}
    {e : FormulaError} :
    cutFrom piece (c :: rest) = .error e ↔
      (∃ longer, piece.extend? c = some longer ∧ cutFrom longer rest = .error e) ∨
        piece.extend? c = none ∧ (start c = .error e ∨
          ∃ next, start c = .ok next ∧ cutFrom next rest = .error e) := by
  rw [cutFrom]
  cases piece.extend? c <;> simp

theorem cut_cons_eq_ok_iff {c : Char} {rest : List Char} {pieces : List Piece} :
    cut (c :: rest) = .ok pieces ↔
      ∃ piece, start c = .ok piece ∧ cutFrom piece rest = .ok pieces := by
  simp [cut]

theorem text_cutFrom {piece : Piece} {rest : List Char} {pieces : List Piece}
    (h : cutFrom piece rest = .ok pieces) : pieces.flatMap text = piece.text ++ rest := by
  induction rest generalizing piece pieces with
  | nil =>
    cases h
    simp
  | cons c rest ih =>
    rcases cutFrom_cons_eq_ok_iff.1 h with ⟨longer, hlonger, hpieces⟩ |
      ⟨-, next, more, hnext, hmore, rfl⟩
    · obtain ⟨l, rfl⟩ : ∃ l, piece = lexeme l := by
        cases piece with
        | blank => cases hlonger
        | lexeme l => exact ⟨l, rfl⟩
      obtain ⟨l', hl', rfl⟩ := Option.map_eq_some_iff.1 hlonger
      rw [ih hpieces]
      simp [text, text_extend? hl']
    · simp [ih hmore, text_start hnext]

/-- The pieces of a text are the text. -/
theorem text_cut {cs : List Char} {pieces : List Piece} (h : cut cs = .ok pieces) :
    pieces.flatMap text = cs := by
  cases cs with
  | nil =>
    cases h
    rfl
  | cons c rest =>
    obtain ⟨piece, hpiece, hpieces⟩ := cut_cons_eq_ok_iff.1 h
    simp [text_cutFrom hpieces, text_start hpiece]

end Piece
end Reckoner
