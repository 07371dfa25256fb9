import Mathlib.Data.Char
import Reckoner.Reading

/-! Characters that end a lexeme.

Where a character prolongs no lexeme, a text may be cut in two and the parts cut by
themselves (`cut_append`). If it begins no factor either, the two parts are also read by
themselves (`read_append`), and the first error is that of the first part that has one. White
space is such a character and gives no token; of the symbols it is all but `(` and `^`, and
each of these is its own token. `ofText_boundaries` says so of whole texts. -/
namespace Reckoner

/-! ### What white space is not -/

namespace Text

theorem not_isBlank_of_ascii {c : Char} (hlow : 0x20 < c.toNat) (hhigh : c.toNat < 0x85) :
    isBlank c = false := by
  simp [isBlank, blankRanges]
  omega

theorem not_isBlank_of_isNumeric {c : Char} (h : isNumeric c) : isBlank c = false := by
  simp [isNumeric, Char.isDigit, UInt32.le_iff_toNat_le] at h
  rcases h with h | rfl
  · exact not_isBlank_of_ascii (by omega) (by omega)
  · decide

theorem toNat_of_isAlpha {c : Char} (h : c.isAlpha) :
    (0x41 ≤ c.toNat ∧ c.toNat ≤ 0x5A) ∨ (0x61 ≤ c.toNat ∧ c.toNat ≤ 0x7A) := by
  have hcases : c.isUpper ∨ c.isLower := (Bool.or_eq_true _ _).mp h
  rcases hcases with hupper | hlower
  · exact .inl (of_decide_eq_true hupper)
  · have hbounds := (Bool.and_eq_true _ _).mp hlower
    exact .inr ⟨of_decide_eq_true hbounds.1, of_decide_eq_true hbounds.2⟩

theorem not_isBlank_of_isAlpha {c : Char} (h : c.isAlpha) : isBlank c = false := by
  have hrange := toNat_of_isAlpha h
  exact not_isBlank_of_ascii (by omega) (by omega)

end Text

/-! ### Cutting a text in two -/

/-- The character prolongs no lexeme. -/
def Lexeme.Closing (c : Char) : Prop := ∀ l : Lexeme, l.extend? c = none

theorem Lexeme.closing_iff {c : Char} :
    Closing c ↔ isNumeric c = false ∧ c.isAlpha = false ∧ c ≠ '^' := by
  constructor
  · intro h
    have hnumber := h (.number "")
    have hname := h (.word "" none)
    simp only [extend?, ite_eq_right_iff, reduceCtorEq, imp_false, Bool.not_eq_true] at hnumber
    by_cases ha : c.isAlpha
    · simp [extend?, ha] at hname
    · by_cases hc : c = '^'
      · simp [extend?, hc] at hname
      · exact ⟨hnumber, by simpa using ha, hc⟩
  · rintro ⟨hn, ha, hc⟩ l
    rcases l with _ | ⟨_, _ | _⟩ | _ <;> simp [extend?, hn, ha, hc]

theorem Lexeme.closing_of_isBlank {c : Char} (h : Text.isBlank c) : Closing c := by
  refine closing_iff.2 ⟨?_, ?_, ?_⟩
  · by_contra hn
    simp [Text.not_isBlank_of_isNumeric (by simpa using hn)] at h
  · by_contra ha
    simp [Text.not_isBlank_of_isAlpha (by simpa using ha)] at h
  · rintro rfl
    exact absurd h (by decide)

/-- No factor begins with such a character, unless it is a parenthesis. -/
theorem Lexeme.not_multiplies_of_closing {c : Char} (hc : Closing c) (hparen : c ≠ '(')
    (l : Lexeme) : l.multiplies (some c) = false := by
  obtain ⟨hnumeric, halpha, -⟩ := closing_iff.1 hc
  have hdigit : c.isDigit = false := (Bool.or_eq_false_iff.1 hnumeric).1
  unfold multiplies
  cases l.token <;> simp [hparen, halpha, hdigit, Char.isAlphanum]

theorem Lexeme.tokens_symbol (s : Symbol) (next : Option Char) :
    (symbol s).tokens next = [.symbol s] := by
  cases next <;> rfl

/-- The symbol goes into no other lexeme and begins no factor, so that what stands before it
and what stands after it have nothing to do with each other. -/
def Symbol.separates : Symbol → Bool
  | .operator .power | .leftParen => false
  | _ => true

theorem Symbol.closing_of_separates {s : Symbol} (h : s.separates) :
    Lexeme.Closing s.char ∧ s.char ≠ '(' := by
  rw [Lexeme.closing_iff]
  revert h
  rcases s with (_ | _ | _ | _ | _) | _ | _ | _ <;> decide

example : (Symbol.all.filter Symbol.separates).map Symbol.char =
    ['+', '-', '*', '/', ')', ','] := by
  decide

namespace Piece

theorem extend?_of_closing {c : Char} (hc : Lexeme.Closing c) (piece : Piece) :
    piece.extend? c = none := by
  cases piece with
  | blank => rfl
  | lexeme l => simp [extend?, hc l]

theorem cutFrom_append {c : Char} (hc : Lexeme.Closing c) (piece : Piece) (as bs : List Char) :
    cutFrom piece (as ++ c :: bs) = do
      let front ← cutFrom piece as
      let back ← cut (c :: bs)
      return front ++ back := by
  induction as generalizing piece with
  | nil =>
    simp only [List.nil_append, cutFrom, extend?_of_closing hc, cut, bind_assoc]
    rfl
  | cons a as ih =>
    rw [List.cons_append, cutFrom, cutFrom]
    cases piece.extend? a with
    | some longer => exact ih longer
    | none => simp only [ih, bind_assoc, pure_bind, List.cons_append]

/-- A text is cut before a character that prolongs no lexeme. -/
theorem cut_append {c : Char} (hc : Lexeme.Closing c) (as bs : List Char) :
    cut (as ++ c :: bs) = do
      let front ← cut as
      let back ← cut (c :: bs)
      return front ++ back := by
  cases as with
  | nil =>
    show cut (c :: bs) = cut (c :: bs) >>= pure
    rw [bind_pure]
  | cons a as => simp only [List.cons_append, cut, cutFrom_append hc, bind_assoc]

theorem extend?_of_start {c : Char} (hc : Lexeme.Closing c) {piece : Piece}
    (h : start c = .ok piece) (b : Char) : piece.extend? b = none := by
  obtain ⟨hnumeric, halpha, -⟩ := Lexeme.closing_iff.1 hc
  simp only [start, Lexeme.start?, hnumeric, halpha, Bool.false_eq_true, if_false] at h
  split at h
  · cases h
    rfl
  · cases hsymbol : Symbol.ofChar? c with
    | none => simp [hsymbol] at h
    | some s =>
      simp only [hsymbol, Option.map_some] at h
      cases h
      rfl

/-- Nothing prolongs a character that prolongs no lexeme: it is a piece by itself. -/
theorem cut_cons_of_closing {c : Char} (hc : Lexeme.Closing c) (bs : List Char) :
    cut (c :: bs) = do
      let piece ← start c
      let back ← cut bs
      return piece :: back := by
  rw [cut]
  cases hstart : start c with
  | error e => rfl
  | ok piece =>
    cases bs with
    | nil => rfl
    | cons b bs =>
      show cutFrom piece (b :: bs) = _
      rw [cutFrom, extend?_of_start hc hstart]
      simp only [cut, bind_assoc, Except.ok_bind]

theorem cut_blank {c : Char} (hc : Text.isBlank c) (bs : List Char) :
    cut (c :: bs) = do
      let back ← cut bs
      return blank c :: back := by
  rw [cut_cons_of_closing (Lexeme.closing_of_isBlank hc), start, if_pos hc]
  rfl

theorem first?_cut {c : Char} (hc : Lexeme.Closing c) {bs : List Char} {pieces : List Piece}
    (h : cut (c :: bs) = .ok pieces) : first? pieces = some c := by
  rw [cut_cons_of_closing hc] at h
  simp only [Except.bind_eq_ok_iff, Except.pure_eq_ok_iff] at h
  obtain ⟨piece, hstart, back, -, rfl⟩ := h
  simp [first?, text_start hstart]

end Piece

/-! ### Reading a text in two -/

namespace Token

/-- The tokens of the characters of a text. -/
def read (cs : List Char) : Except FormulaError (List Token) :=
  (Piece.cut cs).map ofPieces

theorem ofText_eq_read (text : String) : ofText text = read text.toList := rfl

theorem ofText_eq_ok_iff {text : String} {tokens : List Token} :
    ofText text = .ok tokens ↔
      ∃ pieces, Piece.cut text.toList = .ok pieces ∧ ofPieces pieces = tokens := by
  rw [ofText]
  cases Piece.cut text.toList <;> simp [Except.map]

/-- Pieces are read by themselves where no factor begins after them. -/
theorem ofPieces_append {as bs : List Piece}
    (h : ∀ l : Lexeme, l.multiplies (Piece.first? bs) = false) :
    ofPieces (as ++ bs) = ofPieces as ++ ofPieces bs := by
  induction as with
  | nil => rfl
  | cons piece as ih =>
    cases piece with
    | blank c => exact ih
    | lexeme l =>
      -- What comes right after `l` is another piece of `as`, or else begins no factor.
      have hnext : l.tokens (Piece.first? (as ++ bs)) = l.tokens (Piece.first? as) := by
        cases as with
        | nil =>
          rw [List.nil_append, Lexeme.tokens, Lexeme.tokens, h l]
          rfl
        | cons => rfl
      rw [List.cons_append, ofPieces, ofPieces, ih, hnext, List.append_assoc]

/-- A text is read in two parts where a character prolongs no lexeme and begins no factor. -/
theorem read_append {c : Char} (hc : Lexeme.Closing c) (hparen : c ≠ '(') (as bs : List Char) :
    read (as ++ c :: bs) = do
      let front ← read as
      let back ← read (c :: bs)
      return front ++ back := by
  simp only [read, Piece.cut_append hc]
  cases Piece.cut as with
  | error => rfl
  | ok front =>
    cases hback : Piece.cut (c :: bs) with
    | error => rfl
    | ok back =>
      refine congrArg Except.ok (ofPieces_append fun l => ?_)
      rw [Piece.first?_cut hc hback]
      exact l.not_multiplies_of_closing hc hparen

/-! ### White space -/

theorem read_blank {c : Char} (hc : Text.isBlank c) (bs : List Char) : read (c :: bs) = read bs := by
  rw [read, Piece.cut_blank hc, read]
  cases Piece.cut bs <;> rfl

/-- White space sets two texts apart. -/
theorem read_append_blank {c : Char} (hc : Text.isBlank c) (as bs : List Char) :
    read (as ++ c :: bs) = do
      let front ← read as
      let back ← read bs
      return front ++ back := by
  have hparen : c ≠ '(' := by
    intro h
    rw [h] at hc
    exact absurd hc (by decide)
  rw [read_append (Lexeme.closing_of_isBlank hc) hparen, read_blank hc]

theorem read_blanks {ws : List Char} (hws : ∀ c ∈ ws, Text.isBlank c) (bs : List Char) :
    read (ws ++ bs) = read bs := by
  induction ws with
  | nil => rfl
  | cons c ws ih =>
    rw [List.forall_mem_cons] at hws
    rw [List.cons_append, read_blank hws.1, ih hws.2]

theorem read_append_blanks {ws : List Char} (hws : ∀ c ∈ ws, Text.isBlank c) (as : List Char) :
    read (as ++ ws) = read as := by
  cases ws with
  | nil => rw [List.append_nil]
  | cons c ws =>
    have hend := read_blanks (List.forall_mem_cons.1 hws).2 []
    rw [List.append_nil] at hend
    rw [read_append_blank (List.forall_mem_cons.1 hws).1, hend]
    cases read as with
    | error e => rfl
    | ok front => exact congrArg Except.ok (List.append_nil front)

/-- So do any number of white space characters, one at least. -/
theorem read_append_blanks_append {ws : List Char} (hws : ∀ c ∈ ws, Text.isBlank c) (hne : ws ≠ [])
    (as bs : List Char) :
    read (as ++ (ws ++ bs)) = do
      let front ← read as
      let back ← read bs
      return front ++ back := by
  obtain ⟨c, ws, rfl⟩ := List.exists_cons_of_ne_nil hne
  rw [List.forall_mem_cons] at hws
  rw [List.cons_append, read_append_blank hws.1, read_blanks hws.2]

/-! ### Symbols -/

theorem read_symbol {s : Symbol} (hs : s.separates) (bs : List Char) :
    read (s.char :: bs) = do
      let back ← read bs
      return symbol s :: back := by
  have hstart : Piece.start s.char = .ok (.lexeme (.symbol s)) := by
    rcases s with (_ | _ | _ | _ | _) | _ | _ | _ <;> rfl
  rw [read, Piece.cut_cons_of_closing (Symbol.closing_of_separates hs).1, hstart, read]
  cases Piece.cut bs with
  | error => rfl
  | ok back =>
    refine congrArg Except.ok ?_
    rw [ofPieces, Lexeme.tokens_symbol]
    rfl

/-- A symbol that separates is read by itself, between what is read before and after it. -/
theorem read_append_symbol {s : Symbol} (hs : s.separates) (as bs : List Char) :
    read (as ++ s.char :: bs) = do
      let front ← read as
      let back ← read bs
      return front ++ symbol s :: back := by
  obtain ⟨hclosing, hparen⟩ := Symbol.closing_of_separates hs
  rw [read_append hclosing hparen, read_symbol hs]
  cases read as with
  | error => rfl
  | ok front => cases read bs <;> rfl

/-! ### Boundaries in a text -/

theorem ofText_append_blank {w : String} (hne : w ≠ "") (hw : Text.allBlank w) (a b : String) :
    ofText (a ++ w ++ b) = do
      let front ← ofText a
      let back ← ofText b
      return front ++ back := by
  simp only [ofText_eq_read, String.toList_append, List.append_assoc]
  exact read_append_blanks_append (List.all_eq_true.1 hw) (mt String.toList_eq_nil_iff.1 hne) ..

theorem ofText_append_symbol {s : Symbol} (hs : s.separates) (a b : String) :
    ofText (a ++ s.text ++ b) = do
      let front ← ofText a
      let back ← ofText b
      return front ++ symbol s :: back := by
  have htext : (a ++ s.text ++ b).toList = a.toList ++ s.char :: b.toList := by simp [Symbol.text]
  rw [ofText_eq_read, htext]
  exact read_append_symbol hs ..

theorem ofText_blank_append {w : String} (hw : Text.allBlank w) (a : String) :
    ofText (w ++ a) = ofText a := by
  simp only [ofText_eq_read, String.toList_append]
  exact read_blanks (List.all_eq_true.1 hw) _

theorem ofText_append_blank_end {w : String} (hw : Text.allBlank w) (a : String) :
    ofText (a ++ w) = ofText a := by
  simp only [ofText_eq_read, String.toList_append]
  exact read_append_blanks (List.all_eq_true.1 hw) _

/-- **White space and most symbols are boundaries**: what stands before one is read as it is
by itself, and so is what stands after it, and of two errors the first one is reported. The
symbols are all but `(`, which may begin a factor, and `^`, which may belong to a name. So
white space at either end of a text does not count, nor does how much of it stands between
two parts, nor whether any stands beside such a symbol. -/
theorem ofText_boundaries (a b : String) :
    (∀ w : String, w ≠ "" → Text.allBlank w →
      ofText (a ++ w ++ b) = do
        let front ← ofText a
        let back ← ofText b
        return front ++ back) ∧
    (∀ s : Symbol, s.separates →
      ofText (a ++ s.text ++ b) = do
        let front ← ofText a
        let back ← ofText b
        return front ++ symbol s :: back) ∧
    (∀ w w' : String, Text.allBlank w → Text.allBlank w' → ofText (w ++ a ++ w') = ofText a) ∧
    (∀ w w' : String, w ≠ "" → w' ≠ "" → Text.allBlank w → Text.allBlank w' →
      ofText (a ++ w ++ b) = ofText (a ++ w' ++ b)) ∧
    ∀ (s : Symbol) (w w' : String), s.separates → Text.allBlank w → Text.allBlank w' →
      ofText (a ++ w ++ s.text ++ w' ++ b) = ofText (a ++ s.text ++ b) := by
  refine ⟨fun w hne hw => ofText_append_blank hne hw a b, fun s hs => ofText_append_symbol hs a b,
    fun w w' hw hw' => ?_, fun w w' hne hne' hw hw' => ?_, fun s w w' hs hw hw' => ?_⟩
  · rw [ofText_append_blank_end hw', ofText_blank_append hw]
  · rw [ofText_append_blank hne hw, ofText_append_blank hne' hw']
  · rw [String.append_assoc, ofText_append_symbol hs, ofText_append_symbol hs,
      ofText_append_blank_end hw, ofText_blank_append hw']

/-- A `^` at the end of `x^` is cut off from the `2` after the white space, and the first of
two errors is that of `x$`. -/
theorem ofText_boundaries_power :
    (ofText ("x^" ++ "\u00a0\n" ++ "2y") = do
      let front ← ofText "x^"
      let back ← ofText "2y"
      return front ++ back) ∧
    (ofText ("x$" ++ "/" ++ "y#") = do
      let front ← ofText "x$"
      let back ← ofText "y#"
      return front ++ .operator .divide :: back) ∧
    ofText ("\t" ++ "x^" ++ " ") = ofText "x^" ∧
    ofText ("x^" ++ "\u00a0\n" ++ "2y") = ofText ("x^" ++ " " ++ "2y") ∧
    ofText ("x^" ++ " " ++ ")" ++ "\t" ++ "2y") = ofText ("x^" ++ ")" ++ "2y") := by
  obtain ⟨hbetween, -, hends, hruns, hbeside⟩ := ofText_boundaries "x^" "2y"
  obtain ⟨-, herrors, -⟩ := ofText_boundaries "x$" "y#"
  exact ⟨hbetween _ (by decide) (by decide), herrors (.operator .divide) rfl,
    hends _ _ (by decide) (by decide), hruns _ _ (by decide) (by decide) (by decide) (by decide),
    hbeside .rightParen _ _ rfl (by decide) (by decide)⟩

end Token
end Reckoner
