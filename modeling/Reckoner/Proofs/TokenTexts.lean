import Reckoner.Proofs.NumberWriting
import Reckoner.Proofs.Writing

/-! Token texts are formulas.

The text of a token is a word that spells it (`Token.Writable.spells`), if its numbers are
written without a sign and a power of ten and its name is no function's. So tokens in any order,
infix or postfix, are read back from their texts: `ofText_texts`. -/
namespace Reckoner
open Binary64 (code isNegative)

/-- Zero, or a number that is written out. -/
def WrittenOut (v : Float) : Prop := v = 0.0 ∨ (1e-6 : Float) ≤ v ∧ v < (1e21 : Float)

namespace WrittenOut
variable {v : Float}

theorem isNegative_eq_false (h : WrittenOut v) : isNegative v = false := by
  rcases h with rfl | ⟨hlow, hhigh⟩
  · decide +kernel
  · exact (Binary64.bounds_of_between hlow hhigh).1

theorem ofCode_code (h : WrittenOut v) : Binary64.ofCode false (code v) = v := by
  rw [← h.isNegative_eq_false, Binary64.ofCode_code]

theorem isFinite (h : WrittenOut v) : v.isFinite := by
  rcases h with rfl | ⟨hlow, hhigh⟩
  · decide +kernel
  · exact Binary64.isFinite_iff.2 (Binary64.bounds_of_between hlow hhigh).2.2

theorem positional (h : WrittenOut v) :
    code v = 0 ∨ Style.result.positional (Binary64.ofCode false (code v)) := by
  rw [h.ofCode_code]
  rcases h with rfl | ⟨hlow, hhigh⟩
  · left
    decide +kernel
  · right
    exact Bool.and_eq_true_iff.2 ⟨decide_eq_true hlow, decide_eq_true hhigh⟩

/-- Such a number is written as a plain numeral of its value. -/
theorem exists_plain (h : WrittenOut v) :
    ∃ n : Numeral, n.Plain ∧ n.text = (Style.result.write v).toList ∧ n.value = v := by
  have hfinite := h.isFinite
  obtain ⟨n, hn, hsign, htext, hnearest, hexponent⟩ :=
    Style.result.exists_magnitude (Binary64.isFinite_iff.1 hfinite).le
  have hsigns : Style.result.signs v = false := by
    rw [Style.signs, h.isNegative_eq_false, Bool.false_and]
  refine ⟨n, ⟨hsign, List.all_eq_true.2 hn.whole, List.all_eq_true.2 hn.fraction,
    hexponent h.positional, hn.digits⟩, ?_, ?_⟩
  · rw [htext, Style.write_of_isFinite _ hfinite, hsigns, String.toList_ofList]
    rfl
  · rw [Numeral.value, hsign, hnearest]
    exact h.ofCode_code

/-- A power that is written out is written onto a name as a plain numeral. -/
theorem exists_suffix {power : Option Float} (h : ∀ p ∈ power, WrittenOut p) (name : String) :
    ∃ n : Option Numeral, (∀ m ∈ n, m.Plain) ∧
      (Token.named name power).toList = name.toList ++ Numeral.suffix n ∧
      n.map Numeral.value = power := by
  cases power with
  | none => exact ⟨none, nofun, (List.append_nil _).symm, rfl⟩
  | some p =>
    obtain ⟨n, hn, htext, hvalue⟩ := (h p rfl).exists_plain
    refine ⟨some n, ?_, ?_, congrArg some hvalue⟩
    · rintro _ ⟨⟩
      exact hn
    · simp [Token.named, Numeral.suffix, htext]

end WrittenOut

namespace Token

/-- A variable's name is one that can be read, and numbers are written out. -/
def Writable : Token → Prop
  | number v => WrittenOut v
  | var name power => name ≠ "" ∧ name.toList.all Char.isAlpha ∧ Elementary.ofName? name = none ∧
    ∀ p ∈ power, WrittenOut p
  | call _ power => ∀ p ∈ power, WrittenOut p
  | symbol _ => True

/-- The text of a token is a word that spells it. -/
theorem Writable.spells {t : Token} (h : t.Writable) : Spells t.text.toList t := by
  cases t with
  | number v =>
    obtain ⟨n, hn, htext, hvalue⟩ := WrittenOut.exists_plain h
    rw [text, ← htext, ← hvalue]
    exact .number hn
  | var name power =>
    obtain ⟨hne, hname, hfree, hpower⟩ := h
    obtain ⟨n, hn, htext, hvalue⟩ := WrittenOut.exists_suffix hpower name
    rw [text, htext, ← hvalue]
    exact .var hne hname hfree hn
  | call f power =>
    obtain ⟨n, hn, htext, hvalue⟩ := WrittenOut.exists_suffix h f.name
    rw [text, htext, ← hvalue]
    exact .call f hn
  | symbol s =>
    have htext : (symbol s).text.toList = [s.char] :=
      String.toList_singleton s.char
    rw [htext]
    exact .symbol s

/-- **Tokens are read back from their texts**, with single blanks between them and in any order:
every one as it was, and no other. -/
theorem ofText_texts {tokens : List Token} (h : ∀ t ∈ tokens, t.Writable) :
    ofText (texts tokens) = .ok tokens := by
  have htexts : (texts tokens).toList = [' '].intercalate (tokens.map fun t => t.text.toList) := by
    rw [texts, String.toList_intercalate, List.map_map]
    rfl
  have hspells : List.Forall₂ Spells (tokens.map fun t => t.text.toList) tokens :=
    List.forall₂_map_left_iff.2 (List.forall₂_same.2 fun t ht => (h t ht).spells)
  rw [ofText_eq_read, htexts]
  exact (Spaced.intercalate _).read hspells

/-- A variable with a power and one before a `^`, a function before a parenthesis, and zero. -/
theorem ofText_texts_powers :
    ofText (texts [.var "x" (some 2), .var "y" none, .operator .power, .number 0.5,
        .call .sin (some 0), .symbol .leftParen, .number 1e-6]) =
      .ok [.var "x" (some 2), .var "y" none, .operator .power, .number 0.5,
        .call .sin (some 0), .symbol .leftParen, .number 1e-6] := by
  have htwo : WrittenOut 2 := .inr (by decide +kernel)
  have hzero : WrittenOut 0 := .inl (by decide +kernel)
  have hhalf : WrittenOut 0.5 := .inr (by decide +kernel)
  have hleast : WrittenOut 1e-6 := .inr (by decide +kernel)
  refine ofText_texts ?_
  simp only [List.forall_mem_cons, Writable, Option.mem_some_iff, forall_eq']
  exact ⟨⟨by decide, by decide, by decide, htwo⟩, ⟨by decide, by decide, by decide, nofun⟩, trivial,
    hhalf, hzero, trivial, hleast, nofun⟩

end Token
end Reckoner
