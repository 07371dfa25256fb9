import Reckoner.Proofs.Acceptance
import Reckoner.Proofs.LongestMatch
import Reckoner.Proofs.NumberReading

/-! Formulas as they are written.

A word `Spells` a token: a numeral a number, a name with the power written onto it
a variable or a function, a character a symbol. A text `Writes` a tree if it is
words with white space between them, and these spell the tokens of the tree in
infix form, whatever parentheses they have beyond the necessary ones.
`evaluate_of_writes`: such a text has the value of its tree. -/
namespace Reckoner

/-! ### Numerals -/

namespace Numeral

/-- Digits with at most one point, and nothing else. -/
structure Plain (n : Numeral) : Prop where
  sign : n.sign = none
  whole : n.whole.all Char.isDigit
  fraction : (n.fraction.getD []).all Char.isDigit
  exponent : n.exponent = none
  digits : n.whole ≠ [] ∨ n.fraction.getD [] ≠ []

instance (n : Numeral) : Decidable n.Plain :=
  decidable_of_iff (n.sign = none ∧ n.whole.all Char.isDigit ∧
    (n.fraction.getD []).all Char.isDigit ∧ n.exponent = none ∧
    (n.whole ≠ [] ∨ n.fraction.getD [] ≠ []))
    ⟨fun ⟨hs, hw, hf, he, hd⟩ => ⟨hs, hw, hf, he, hd⟩,
      fun ⟨hs, hw, hf, he, hd⟩ => ⟨hs, hw, hf, he, hd⟩⟩

theorem Plain.text_eq {n : Numeral} (h : n.Plain) :
    n.text = n.whole ++ (n.fraction.map ('.' :: ·)).getD [] := by
  simp [text, h.sign, h.exponent]

theorem Plain.isNumeric {n : Numeral} (h : n.Plain) : ∀ c ∈ n.text, isNumeric c := by
  intro c hc
  rw [h.text_eq, List.mem_append] at hc
  rcases hc with hc | hc
  · simp [Reckoner.isNumeric, List.all_eq_true.1 h.whole c hc]
  · have hfraction := List.all_eq_true.1 h.fraction
    cases hn : n.fraction with
    | none => simp [hn] at hc
    | some digits =>
      simp only [hn, Option.map_some, Option.getD_some, List.mem_cons] at hc hfraction
      rcases hc with rfl | hc
      · rfl
      · simp [Reckoner.isNumeric, hfraction c hc]

theorem Plain.formed {n : Numeral} (h : n.Plain) : n.Formed where
  whole := List.all_eq_true.1 h.whole
  fraction := List.all_eq_true.1 h.fraction
  digits := h.digits
  exponent := by simp [h.exponent]

theorem Plain.text_ne_nil {n : Numeral} (h : n.Plain) : n.text ≠ [] := by
  rw [h.text_eq]
  rcases h.digits with hwhole | hfraction
  · simp [hwhole]
  · cases hn : n.fraction <;> simp_all

/-- The power that a numeral writes onto a name, if there is one. -/
def suffix : Option Numeral → List Char
  | none => []
  | some n => '^' :: n.text

end Numeral

/-! ### Words -/

namespace Lexeme

/-- The text of a lexeme is its token. -/
theorem Formed.read {l : Lexeme} (hl : l.Formed) : Token.read l.text = .ok [l.token] := by
  have hcut := @Piece.cut_lexeme l hl [] nofun
  rw [List.append_nil] at hcut
  rw [Token.read, hcut]
  rfl

theorem formed_number {n : Numeral} (h : n.Plain) : Formed (.number (String.ofList n.text)) :=
  .number (by simp [h.text_ne_nil]) (by simpa using h.isNumeric)

theorem read_number {n : Numeral} (h : n.Plain) : Token.read n.text = .ok [.number n.value] := by
  have hread := (formed_number h).read
  rwa [text, token, String.toList_ofList, h.formed.readNumber_text] at hread

theorem read_name {name : String} (hne : name ≠ "") (hname : name.toList.all Char.isAlpha)
    {power : Option Numeral} (hpower : ∀ n ∈ power, n.Plain) :
    Token.read (name.toList ++ Numeral.suffix power) =
      .ok [.ofName name (power.map Numeral.value)] := by
  cases power with
  | none =>
    rw [Numeral.suffix, List.append_nil]
    exact (Formed.name hne hname).read
  | some n =>
    have hplain := hpower n rfl
    have hrun : (String.ofList n.text).toList.all isNumeric := by simpa using hplain.isNumeric
    have hread := (Formed.power hne hname hrun).read
    rwa [text, token, Option.map_some, String.toList_ofList, hplain.formed.readNumber_text] at hread

theorem read_symbol (s : Symbol) : Token.read [s.char] = .ok [.symbol s] := (Formed.symbol s).read

end Lexeme

/-- The word is how the token may be written. -/
inductive Spells : List Char → Token → Prop where
  | number {n : Numeral} : n.Plain → Spells n.text (.number n.value)
  | var {name : String} {power : Option Numeral} :
    name ≠ "" → name.toList.all Char.isAlpha → Elementary.ofName? name = none →
    (∀ n ∈ power, n.Plain) →
    Spells (name.toList ++ Numeral.suffix power) (.var name (power.map Numeral.value))
  | call (f : Elementary) {power : Option Numeral} : (∀ n ∈ power, n.Plain) →
    Spells (f.name.toList ++ Numeral.suffix power) (.call f (power.map Numeral.value))
  | symbol (s : Symbol) : Spells [s.char] (.symbol s)

theorem Spells.read {word : List Char} {token : Token} (h : Spells word token) :
    Token.read word = .ok [token] := by
  cases h with
  | number h => exact Lexeme.read_number h
  | var hne hname hfree hpower =>
    rw [Lexeme.read_name hne hname hpower, Token.ofName, hfree]
  | call f hpower =>
    have hname : f.name ≠ "" ∧ f.name.toList.all Char.isAlpha := by cases f <;> decide
    rw [Lexeme.read_name hname.1 hname.2 hpower, Token.ofName, Elementary.ofName?_name]
  | symbol s => exact Lexeme.read_symbol s

/-- The text is the words in their order, with white space between them and, where
there is any, around them. -/
inductive Spaced : List (List Char) → List Char → Prop where
  | nil : Spaced [] []
  | blank {c : Char} {words : List (List Char)} {cs : List Char} :
    Text.isBlank c → Spaced words cs → Spaced words (c :: cs)
  | last (word : List Char) : Spaced [word] word
  | cons {c : Char} (word : List Char) {words : List (List Char)} {cs : List Char} :
    Text.isBlank c → Spaced words cs → Spaced (word :: words) (word ++ c :: cs)

theorem Spaced.intercalate (words : List (List Char)) :
    Spaced words ([' '].intercalate words) := by
  have hblank : Text.isBlank ' ' := by decide
  induction words with
  | nil => exact .nil
  | cons word words ih =>
    cases words with
    | nil =>
      rw [List.intercalate_singleton]
      exact .last word
    | cons next rest =>
      rw [List.intercalate_cons_cons, List.append_assoc]
      exact .cons word hblank ih

theorem Spaced.read {words : List (List Char)} {cs : List Char} {tokens : List Token}
    (h : Spaced words cs) (hwords : List.Forall₂ Spells words tokens) :
    Token.read cs = .ok tokens := by
  induction h generalizing tokens with
  | nil =>
    cases hwords
    rfl
  | blank hc _ ih =>
    rw [Token.read_blank hc]
    exact ih hwords
  | last word =>
    obtain _ | ⟨hword, _ | _⟩ := hwords
    exact hword.read
  | cons word hc _ ih =>
    obtain _ | ⟨hword, hrest⟩ := hwords
    rw [Token.read_append_blank hc, hword.read, ih hrest]
    rfl

/-! ### Texts -/

/-- The text is the tree in infix form, with white space between its words. -/
def Writes (text : String) (t : Tree) : Prop :=
  ∃ words tokens, Spaced words text.toList ∧ List.Forall₂ Spells words tokens ∧
    Infix .sum tokens t

/-- **What is written has the value of its tree**, if every function has as many
arguments as it takes and every variable is bound. -/
theorem Formula.evaluate_of_writes {text : String} {t : Tree} {b : Bindings}
    (htext : Writes text t) (hsaturated : t.Saturated) (hbound : t.BoundIn b) :
    evaluate text b = .ok (t.value b) := by
  obtain ⟨words, tokens, hspaced, hwords, hinfix⟩ := htext
  have htokens : Token.ofText text = .ok tokens := by
    rw [Token.ofText_eq_read, hspaced.read hwords]
  have hpostorder : Postfix.ofTokens tokens = .ok t.postorder :=
    (Postfix.converts_phrase hinfix).1.ofTokens
  have hvalue : Postfix.value t.postorder b = .ok (t.value b) :=
    Postfix.value_eq_ok_iff.2 ⟨t, rfl, ⟨hsaturated, hbound⟩, rfl⟩
  exact evaluate_eq_ok_iff_stages.2 ⟨tokens, t.postorder, htokens, hpostorder, hvalue⟩

/-- A power on a variable and on a call, a call in a call, and parentheses that are
not needed. -/
theorem Formula.evaluate_of_writes_log :
    ∃ t, Writes "( x^2 - ( 1.5 ) ) * log^2 ( sqrt ( x ) , 2 )" t ∧ t.Saturated ∧
      t.BoundIn (.bind .empty "x" "16") ∧
      evaluate "( x^2 - ( 1.5 ) ) * log^2 ( sqrt ( x ) , 2 )" (.bind .empty "x" "16") =
        .ok (((16 : Float).pow 2 - 1.5) * ((16 : Float).sqrt.log / (2 : Float).log).pow 2) := by
  have htwo : Numeral.Plain ⟨none, ['2'], none, none⟩ := by decide
  have hhalves : Numeral.Plain ⟨none, ['1'], some ['5'], none⟩ := by decide
  have hwords : List.Forall₂ Spells _ _ :=
    .cons (.symbol .leftParen) <|
    .cons (@Spells.var "x" (some _) (by decide) (by decide) (by decide) (by simpa using htwo)) <|
    .cons (.symbol (.operator .subtract)) <| .cons (.symbol .leftParen) <|
    .cons (.number hhalves) <| .cons (.symbol .rightParen) <| .cons (.symbol .rightParen) <|
    .cons (.symbol (.operator .multiply)) <|
    .cons (@Spells.call .log (some _) (by simpa using htwo)) <| .cons (.symbol .leftParen) <|
    .cons (@Spells.call .sqrt none nofun) <| .cons (.symbol .leftParen) <|
    .cons (@Spells.var "x" none (by decide) (by decide) (by decide) nofun) <|
    .cons (.symbol .rightParen) <| .cons (.symbol .comma) <| .cons (.number htwo) <|
    .cons (.symbol .rightParen) .nil
  have hnumber := Infix.number (Numeral.value ⟨none, ['2'], none, none⟩)
  have hdifference := Infix.sum (.inr rfl)
    ((Infix.var "x" (some (Numeral.value ⟨none, ['2'], none, none⟩))).lift .sum)
    ((((Infix.number (Numeral.value ⟨none, ['1'], some ['5'], none⟩)).lift .sum).parens).lift
      .product)
  have hroot := @Infix.call .sqrt none 1 ![_] ![_]
    (Fin.forall_fin_one.2 ((Infix.var "x" none).lift .sum))
  have hlog := @Infix.call .log (some (Numeral.value ⟨none, ['2'], none, none⟩)) 2 ![_, _] ![_, _]
    (Fin.forall_fin_two.2 ⟨hroot.lift .sum, hnumber.lift .sum⟩)
  have hproduct := Infix.product (.inl rfl) (hdifference.parens.lift .product) (hlog.lift .power)
  have hwrites : Writes "( x^2 - ( 1.5 ) ) * log^2 ( sqrt ( x ) , 2 )" _ :=
    ⟨_, _, Spaced.intercalate _, hwords, hproduct.ofProduct⟩
  refine ⟨_, hwrites, ?saturated, ?bound,
    (evaluate_of_writes hwrites ?saturated ?bound).trans ?value⟩
  · exact ⟨⟨trivial, trivial⟩, rfl,
      Fin.forall_fin_two.2 ⟨⟨rfl, Fin.forall_fin_one.2 trivial⟩, trivial⟩⟩
  · show ∀ name ∈ ["x", "x"], (Bindings.empty.bind "x" "16").Binds name
    simp [Bindings.Binds, Bindings.get?_bind]
  · have hx : (Bindings.empty.bind "x" "16").valueOf "x" = 16 := by decide +kernel
    have h2 : Numeral.value ⟨none, ['2'], none, none⟩ = 2 := by decide +kernel
    have h15 : Numeral.value ⟨none, ['1'], some ['5'], none⟩ = 1.5 := by decide +kernel
    rw [← hx, ← h2, ← h15]
    rfl

end Reckoner
