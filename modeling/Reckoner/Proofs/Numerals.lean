import Mathlib.Computability.Language
import Mathlib.Data.List.TakeWhile
import Reckoner.Number.Numeral

/-! The longest numeral of a text.

`Numeral.Formed` says which numerals there are, and `Numeral.language` what they look like:
an optional sign, digits with at most one point before, among or after them, and an
optional power of ten. The words of the language are the texts of the numerals
(`mem_language_iff`).

A text is read part by part, and no part looks back. `Formed.ofText_append`: whatever
follows a numeral, no more than that is left of the text. So what is read is the longest
numeral there is (`ofText_eq_some_iff`), if there is one (`ofText_eq_none_iff`). -/
namespace Reckoner
open scoped Computability

/-! ### Parts of a numeral -/

/-- The letter is one of the two, and there are digits. -/
structure Exponent.Formed (e : Exponent) : Prop where
  letter : e.letter = 'e' ∨ e.letter = 'E'
  isDigit : ∀ c ∈ e.digits, c.isDigit
  digits : e.digits ≠ []

namespace Numeral

/-- There are digits before the point or after it, and nothing but digits. -/
structure Formed (n : Numeral) : Prop where
  whole : ∀ c ∈ n.whole, c.isDigit
  fraction : ∀ c ∈ n.fraction.getD [], c.isDigit
  digits : n.whole ≠ [] ∨ n.fraction.getD [] ≠ []
  exponent : ∀ e ∈ n.exponent, e.Formed

/-- Neither a digit nor a point begins the text. -/
def Ends (cs : List Char) : Prop := ∀ c ∈ cs.head?, c.isDigit = false ∧ c ≠ '.'

theorem Ends.takeWhile {cs : List Char} (h : Ends cs) : cs.takeWhile Char.isDigit = [] := by
  cases cs with
  | nil => rfl
  | cons c cs => rw [List.takeWhile_cons, (h c rfl).1, if_neg Bool.false_ne_true]

theorem Ends.dropWhile {cs : List Char} (h : Ends cs) : cs.dropWhile Char.isDigit = cs := by
  cases cs with
  | nil => rfl
  | cons c cs => rw [List.dropWhile_cons, (h c rfl).1, if_neg Bool.false_ne_true]

theorem Ends.takeFraction {cs : List Char} (h : Ends cs) : takeFraction cs = (none, cs) := by
  unfold Numeral.takeFraction
  split
  · exact absurd rfl (h '.' rfl).2
  · rfl

end Numeral

theorem Sign.ne_of_isDigit {c : Char} (h : c.isDigit) : c ≠ '+' ∧ c ≠ '-' := by
  constructor <;>
    · rintro rfl
      exact absurd h (by decide)

theorem Sign.ofText_append (sign : Option Sign) {body : List Char}
    (h : ∀ c ∈ body.head?, c ≠ '+' ∧ c ≠ '-') :
    ofText ((sign.map char).toList ++ body) = (sign, body) := by
  rcases sign with _ | _ | _
  · show ofText body = _
    unfold ofText
    split
    · exact absurd rfl (h '+' rfl).1
    · exact absurd rfl (h '-' rfl).2
    · rfl
  · rfl
  · rfl

namespace Exponent

/-- Digits that follow an exponent are taken for its own. -/
theorem Formed.ofText_append {e : Exponent} (h : e.Formed) (rest : List Char) :
    ofText (e.text ++ rest) =
      (some { e with digits := e.digits ++ rest.takeWhile Char.isDigit },
        rest.dropWhile Char.isDigit) := by
  have hhead : ∀ c ∈ (e.digits ++ rest).head?, c ≠ '+' ∧ c ≠ '-' := by
    obtain ⟨d, ds, hdigits⟩ := List.exists_cons_of_ne_nil h.digits
    intro c hc
    rw [hdigits] at hc
    obtain rfl : d = c := Option.some.inj hc
    exact Sign.ne_of_isDigit (h.isDigit d (hdigits ▸ List.mem_cons_self))
  have hsign := Sign.ofText_append e.sign hhead
  rw [text, List.cons_append, List.append_assoc, ofText]
  simp only [hsign, List.takeWhile_append_of_pos h.isDigit, List.dropWhile_append_of_pos h.isDigit]
  rw [if_pos ⟨h.letter, List.append_ne_nil_of_left_ne_nil h.digits _⟩]

theorem ofText_suffix (cs : List Char) : (ofText cs).2 <:+ cs :=
  ⟨_, text_ofText cs⟩

theorem Formed.of_ofText {cs : List Char} {e : Exponent} (h : (ofText cs).1 = some e) :
    e.Formed := by
  cases cs with
  | nil => cases h
  | cons letter rest =>
    simp only [ofText] at h
    split at h
    · rename_i hletter
      cases h
      exact ⟨hletter.1, fun _ => List.mem_takeWhile_imp, hletter.2⟩
    · cases h

theorem Formed.ends {e : Exponent} (h : e.Formed) (rest : List Char) :
    Numeral.Ends (e.text ++ rest) := by
  intro c hc
  obtain rfl : e.letter = c := Option.some.inj hc
  rcases h.letter with hletter | hletter <;>
    · rw [hletter]
      decide

end Exponent

namespace Numeral

/-- Of a fraction with the point and what follows it all of the fraction is read. -/
theorem takeFraction_append {fraction : Option (List Char)}
    (h : ∀ c ∈ fraction.getD [], c.isDigit) (rest : List Char) :
    ∃ read tail,
      takeFraction (((fraction.map ('.' :: ·)).getD [] ++ rest).dropWhile Char.isDigit) =
        (read, tail) ∧
      fraction.getD [] <+: read.getD [] ∧ tail <:+ rest ∧
      (Ends rest → read = fraction ∧ tail = rest) := by
  cases fraction with
  | none =>
    have hsuffix : (takeFraction (rest.dropWhile Char.isDigit)).2 <:+ rest :=
      .trans ⟨_, text_takeFraction _⟩ (List.dropWhile_suffix _)
    refine ⟨_, _, rfl, List.nil_prefix, hsuffix, fun hends => ?_⟩
    show (takeFraction (rest.dropWhile Char.isDigit)).1 = none ∧
      (takeFraction (rest.dropWhile Char.isDigit)).2 = rest
    rw [hends.dropWhile, hends.takeFraction]
    exact ⟨rfl, rfl⟩
  | some digits =>
    refine ⟨some (digits ++ rest.takeWhile Char.isDigit), rest.dropWhile Char.isDigit, ?_,
      List.prefix_append _ _, List.dropWhile_suffix _, fun hends => ?_⟩
    · show (some ((digits ++ rest).takeWhile Char.isDigit), (digits ++ rest).dropWhile Char.isDigit)
        = _
      rw [Option.getD_some] at h
      rw [List.takeWhile_append_of_pos h, List.dropWhile_append_of_pos h]
    · rw [hends.takeWhile, hends.dropWhile, List.append_nil]
      exact ⟨rfl, rfl⟩

/-- No digits go on before the point of a fraction. -/
theorem Ends.takeWhile_fraction {rest : List Char} (h : Ends rest)
    (fraction : Option (List Char)) :
    ((fraction.map ('.' :: ·)).getD [] ++ rest).takeWhile Char.isDigit = [] := by
  cases fraction with
  | none => exact h.takeWhile
  | some digits => rfl

/-- The parts of a numeral, read one after the other. -/
theorem ofText_eq_of_parts {text body tail rest : List Char} {n : Numeral}
    (hsign : Sign.ofText text = (n.sign, body)) (hwhole : body.takeWhile Char.isDigit = n.whole)
    (hfraction : takeFraction (body.dropWhile Char.isDigit) = (n.fraction, tail))
    (hexponent : Exponent.ofText tail = (n.exponent, rest))
    (hdigits : n.whole ≠ [] ∨ n.fraction.getD [] ≠ []) : ofText text = some (n, rest) := by
  simp only [ofText, hsign, hwhole, hfraction, hexponent]
  rw [if_neg (by tauto)]

/-- After its sign a numeral begins with a digit or a point. -/
theorem Formed.head {n : Numeral} (h : n.Formed) (rest : List Char) :
    ∀ c ∈ (n.whole ++ ((n.fraction.map ('.' :: ·)).getD [] ++ rest)).head?,
      c.isDigit ∨ c = '.' := by
  intro c hc
  cases hwhole : n.whole with
  | nil =>
    cases hfraction : n.fraction with
    | none =>
      have hdigits := h.digits
      rw [hwhole, hfraction] at hdigits
      exact absurd rfl (hdigits.resolve_left (not_not_intro rfl))
    | some digits =>
      rw [hwhole, hfraction] at hc
      exact .inr (Option.some.inj hc).symm
  | cons d ds =>
    rw [hwhole] at hc
    obtain rfl : d = c := Option.some.inj hc
    exact .inl (h.whole d (hwhole ▸ List.mem_cons_self))

theorem Formed.ofText_sign {n : Numeral} (h : n.Formed) (rest : List Char) :
    Sign.ofText (n.text ++ rest) =
      (n.sign, n.whole ++ ((n.fraction.map ('.' :: ·)).getD [] ++
        ((n.exponent.map Exponent.text).getD [] ++ rest))) := by
  have hbody : n.text ++ rest = (n.sign.map Sign.char).toList ++
      (n.whole ++ ((n.fraction.map ('.' :: ·)).getD [] ++
        ((n.exponent.map Exponent.text).getD [] ++ rest))) := by
    simp only [text, List.append_assoc]
  rw [hbody]
  refine Sign.ofText_append n.sign fun c hc => ?_
  rcases h.head _ c hc with hdigit | rfl
  · exact Sign.ne_of_isDigit hdigit
  · decide

theorem Formed.ends_exponent {n : Numeral} (h : n.Formed) :
    Ends ((n.exponent.map Exponent.text).getD [] ++ []) := by
  cases hexponent : n.exponent with
  | none => nofun
  | some e => exact (h.exponent e hexponent).ends []

/-- Of a power of ten with what follows it no more than that is left. -/
theorem Formed.exponent_append {n : Numeral} (h : n.Formed) {rest tail : List Char}
    (hsuffix : tail <:+ (n.exponent.map Exponent.text).getD [] ++ rest)
    (hends : Ends ((n.exponent.map Exponent.text).getD [] ++ rest) →
      tail = (n.exponent.map Exponent.text).getD [] ++ rest) :
    (Exponent.ofText tail).2 <:+ rest ∧
      (rest = [] → Exponent.ofText tail = (n.exponent, [])) := by
  cases hexponent : n.exponent with
  | none =>
    rw [hexponent] at hsuffix
    refine ⟨(Exponent.ofText_suffix tail).trans hsuffix, ?_⟩
    rintro rfl
    obtain rfl : tail = [] := List.suffix_nil.1 hsuffix
    rfl
  | some e =>
    have he := h.exponent e hexponent
    rw [hexponent] at hends
    obtain rfl : tail = e.text ++ rest := hends (he.ends rest)
    rw [he.ofText_append]
    refine ⟨List.dropWhile_suffix _, ?_⟩
    rintro rfl
    rw [List.takeWhile_nil, List.append_nil, List.dropWhile_nil]

/-- **Whatever follows a numeral, no more than that is left of the text.** -/
theorem Formed.ofText_append {n : Numeral} (h : n.Formed) (rest : List Char) :
    ∃ read tail, ofText (n.text ++ rest) = some (read, tail) ∧ tail <:+ rest ∧
      (rest = [] → read = n) := by
  -- digits may go on after the last part, and where parts are missing, the parts themselves
  obtain ⟨fraction, tail, hread, hmore, hsuffix, hself⟩ := takeFraction_append h.fraction
    ((n.exponent.map Exponent.text).getD [] ++ rest)
  obtain ⟨hleft, hexponent⟩ := h.exponent_append hsuffix fun hends => (hself hends).2
  have hdigits : n.whole ++ ((n.fraction.map ('.' :: ·)).getD [] ++
      ((n.exponent.map Exponent.text).getD [] ++ rest)).takeWhile Char.isDigit ≠ [] ∨
      fraction.getD [] ≠ [] :=
    h.digits.imp (List.append_ne_nil_of_left_ne_nil · _) (mt fun hnil => by
      rwa [hnil, List.prefix_nil] at hmore)
  refine ⟨⟨n.sign, _, fraction, (Exponent.ofText tail).1⟩, (Exponent.ofText tail).2,
    ofText_eq_of_parts (h.ofText_sign rest) (List.takeWhile_append_of_pos h.whole) ?_ rfl hdigits,
    hleft, ?_⟩
  · rw [List.dropWhile_append_of_pos h.whole, hread]
  · rintro rfl
    have hends := h.ends_exponent
    rw [(hself hends).1, hexponent rfl, hends.takeWhile_fraction, List.append_nil]

/-- A numeral is read back. -/
theorem Formed.ofText_text {n : Numeral} (h : n.Formed) : ofText n.text = some (n, []) := by
  obtain ⟨read, tail, hread, hsuffix, hself⟩ := h.ofText_append []
  rw [List.append_nil, hself rfl, List.suffix_nil.1 hsuffix] at hread
  exact hread

theorem Formed.text_inj {m n : Numeral} (hm : m.Formed) (hn : n.Formed) (h : m.text = n.text) :
    m = n := by
  have hread := hn.ofText_text
  rw [← h, hm.ofText_text] at hread
  exact congrArg Prod.fst (Option.some.inj hread)

/-- What is read is a numeral. -/
theorem Formed.of_ofText {text rest : List Char} {n : Numeral}
    (h : ofText text = some (n, rest)) : n.Formed := by
  simp only [ofText] at h
  split at h
  · cases h
  · rename_i hdigits
    cases h
    refine ⟨fun _ => List.mem_takeWhile_imp, ?_, by tauto, fun e => Exponent.Formed.of_ofText⟩
    unfold takeFraction
    split
    · exact fun _ => List.mem_takeWhile_imp
    · exact List.forall_mem_nil _

/-! ### Characters of a numeral -/

/-- The character is an ASCII one after the space. -/
def IsMark (c : Char) : Prop := 0x20 < c.toNat ∧ c.toNat < 0x80

theorem isMark_of_all {cs : List Char} (h : cs.all fun c => 0x20 < c.toNat && c.toNat < 0x80) :
    ∀ c ∈ cs, IsMark c := by
  intro c hc
  have hbounds := Bool.and_eq_true_iff.1 (List.all_eq_true.1 h c hc)
  exact ⟨of_decide_eq_true hbounds.1, of_decide_eq_true hbounds.2⟩

theorem isMark_of_isDigit {c : Char} (h : c.isDigit) : IsMark c := by
  rw [Char.isDigit_iff_toNat] at h
  exact ⟨Nat.lt_of_lt_of_le (by decide) h.1, Nat.lt_of_le_of_lt h.2 (by decide)⟩

theorem isMark_sign {sign : Option Sign} {c : Char} (h : c ∈ (sign.map Sign.char).toList) :
    IsMark c := by
  rcases sign with _ | _ | _
  · cases h
  · obtain rfl : c = '+' := List.mem_singleton.1 h
    exact ⟨by decide, by decide⟩
  · obtain rfl : c = '-' := List.mem_singleton.1 h
    exact ⟨by decide, by decide⟩

theorem isMark_exponent {e : Exponent} (h : e.Formed) {c : Char} (hc : c ∈ e.text) : IsMark c := by
  rw [Exponent.text, List.mem_cons, List.mem_append] at hc
  rcases hc with rfl | hsign | hdigit
  · rcases h.letter with hletter | hletter <;> rw [hletter] <;> exact ⟨by decide, by decide⟩
  · exact isMark_sign hsign
  · exact isMark_of_isDigit (h.isDigit c hdigit)

theorem Formed.isMark {n : Numeral} (h : n.Formed) {c : Char} (hc : c ∈ n.text) : IsMark c := by
  simp only [text, List.mem_append] at hc
  rcases hc with ((hsign | hwhole) | hfraction) | hexponent
  · exact isMark_sign hsign
  · exact isMark_of_isDigit (h.whole c hwhole)
  · have hdigits := h.fraction
    cases hn : n.fraction with
    | none =>
      rw [hn] at hfraction
      cases hfraction
    | some digits =>
      rw [hn] at hfraction hdigits
      rcases List.mem_cons.1 hfraction with rfl | hdigit
      · exact ⟨by decide, by decide⟩
      · exact isMark_of_isDigit (hdigits c hdigit)
  · cases hn : n.exponent with
    | none =>
      rw [hn] at hexponent
      cases hexponent
    | some e =>
      rw [hn] at hexponent
      exact isMark_exponent (h.exponent e hn) hexponent

/-! ### The language of numerals -/

/-- Texts of one digit. -/
def digit : Language Char := {w | ∃ c, c.isDigit ∧ [c] = w}

def digits : Language Char := digit * digit∗

def signs : Language Char := 1 + {['+'], ['-']}

def point : Language Char := {['.']}

def powers : Language Char := {['e'], ['E']} * signs * digits

def mantissas : Language Char := digits * (1 + point * digit∗) + point * digits

/-- A sign, digits with at most one point, and a power of ten. -/
def language : Language Char := signs * mantissas * (1 + powers)

theorem mem_kstar_digit {w : List Char} : w ∈ digit∗ ↔ ∀ c ∈ w, c.isDigit := by
  rw [Language.mem_kstar]
  constructor
  · rintro ⟨words, rfl, hwords⟩ c hc
    obtain ⟨word, hword, hc⟩ := List.mem_flatten.1 hc
    obtain ⟨d, hd, rfl⟩ := hwords word hword
    rwa [List.mem_singleton.1 hc]
  · intro h
    refine ⟨w.map fun c => [c], ?_, ?_⟩
    · rw [← List.flatMap_def, List.flatMap_singleton']
    · intro word hword
      obtain ⟨c, hc, rfl⟩ := List.mem_map.1 hword
      exact ⟨c, h c hc, rfl⟩

theorem mem_digits {w : List Char} : w ∈ digits ↔ w ≠ [] ∧ ∀ c ∈ w, c.isDigit := by
  rw [digits, Language.mem_mul]
  constructor
  · rintro ⟨_, ⟨c, hc, rfl⟩, ds, hds, rfl⟩
    refine ⟨List.cons_ne_nil _ _, ?_⟩
    rw [List.singleton_append, List.forall_mem_cons]
    exact ⟨hc, mem_kstar_digit.1 hds⟩
  · rintro ⟨hne, h⟩
    obtain ⟨c, ds, rfl⟩ := List.exists_cons_of_ne_nil hne
    rw [List.forall_mem_cons] at h
    exact ⟨[c], ⟨c, h.1, rfl⟩, ds, mem_kstar_digit.2 h.2, rfl⟩

theorem mem_signs {w : List Char} :
    w ∈ signs ↔ ∃ sign : Option Sign, (sign.map Sign.char).toList = w := by
  rw [signs, Language.mem_add, Language.mem_one]
  constructor
  · rintro (rfl | rfl | rfl)
    · exact ⟨none, rfl⟩
    · exact ⟨some .plus, rfl⟩
    · exact ⟨some .minus, rfl⟩
  · rintro ⟨_ | _ | _, rfl⟩
    · exact .inl rfl
    · exact .inr (.inl rfl)
    · exact .inr (.inr rfl)

theorem mem_powers {w : List Char} : w ∈ powers ↔ ∃ e : Exponent, e.Formed ∧ e.text = w := by
  simp only [powers, Language.mem_mul, mem_signs, mem_digits]
  constructor
  · rintro ⟨_, ⟨_, hletter, _, ⟨sign, rfl⟩, rfl⟩, ds, ⟨hne, hds⟩, rfl⟩
    rcases hletter with rfl | rfl
    · exact ⟨⟨'e', sign, ds⟩, ⟨.inl rfl, hds, hne⟩, rfl⟩
    · exact ⟨⟨'E', sign, ds⟩, ⟨.inr rfl, hds, hne⟩, rfl⟩
  · rintro ⟨⟨letter, sign, ds⟩, ⟨hletter, hds, hne⟩, rfl⟩
    refine ⟨letter :: (sign.map Sign.char).toList, ⟨[letter], ?_, _, ⟨sign, rfl⟩, rfl⟩, ds,
      ⟨hne, hds⟩, rfl⟩
    exact hletter.imp (congrArg ([·])) (congrArg ([·]))

theorem mem_mantissas {w : List Char} :
    w ∈ mantissas ↔ ∃ (whole : List Char) (fraction : Option (List Char)),
      (∀ c ∈ whole, c.isDigit) ∧ (∀ c ∈ fraction.getD [], c.isDigit) ∧
      (whole ≠ [] ∨ fraction.getD [] ≠ []) ∧
      whole ++ (fraction.map ('.' :: ·)).getD [] = w := by
  simp only [mantissas, point, Language.mem_add, Language.mem_mul, Language.mem_one, mem_digits,
    mem_kstar_digit]
  constructor
  · rintro (⟨whole, ⟨hne, hwhole⟩, _, rfl | ⟨_, rfl, ds, hds, rfl⟩, rfl⟩ |
      ⟨_, rfl, ds, ⟨hne, hds⟩, rfl⟩)
    · exact ⟨whole, none, hwhole, nofun, .inl hne, rfl⟩
    · exact ⟨whole, some ds, hwhole, hds, .inl hne, rfl⟩
    · exact ⟨[], some ds, nofun, hds, .inr hne, rfl⟩
  · rintro ⟨whole, fraction, hwhole, hfraction, hdigits, rfl⟩
    by_cases hne : whole = []
    · subst hne
      cases fraction with
      | none => exact absurd rfl (hdigits.resolve_left (not_not_intro rfl))
      | some ds =>
        exact .inr ⟨['.'], rfl, ds, ⟨hdigits.resolve_left (not_not_intro rfl), hfraction⟩, rfl⟩
    · refine .inl ⟨whole, ⟨hne, hwhole⟩, _, ?_, rfl⟩
      cases fraction with
      | none => exact .inl rfl
      | some ds => exact .inr ⟨['.'], rfl, ds, hfraction, rfl⟩

/-- The words of the language are the texts of the numerals. -/
theorem mem_language_iff {w : List Char} :
    w ∈ language ↔ ∃ n : Numeral, n.Formed ∧ n.text = w := by
  simp only [language, Language.mem_mul, Language.mem_add, Language.mem_one, mem_signs,
    mem_mantissas, mem_powers]
  constructor
  · rintro ⟨_, ⟨_, ⟨sign, rfl⟩, _, ⟨whole, fraction, hwhole, hfraction, hdigits, rfl⟩, rfl⟩, _,
      rfl | ⟨e, he, rfl⟩, rfl⟩
    · refine ⟨⟨sign, whole, fraction, none⟩, ⟨hwhole, hfraction, hdigits, nofun⟩, ?_⟩
      simp only [text, List.append_assoc]
      rfl
    · refine ⟨⟨sign, whole, fraction, some e⟩, ⟨hwhole, hfraction, hdigits, ?_⟩, ?_⟩
      · rintro _ ⟨⟩
        exact he
      · simp only [text, List.append_assoc]
        rfl
  · rintro ⟨⟨sign, whole, fraction, exponent⟩, ⟨hwhole, hfraction, hdigits, hexponent⟩, rfl⟩
    refine ⟨_, ⟨_, ⟨sign, rfl⟩, _, ⟨whole, fraction, hwhole, hfraction, hdigits, rfl⟩, rfl⟩,
      (exponent.map Exponent.text).getD [], ?_, ?_⟩
    · cases exponent with
      | none => exact .inl rfl
      | some e => exact .inr ⟨e, hexponent e rfl, rfl⟩
    · simp only [text, List.append_assoc]

/-! ### The longest one -/

/-- **What is read is the longest numeral** the text begins with. -/
theorem ofText_eq_some_iff {text rest : List Char} {n : Numeral} :
    ofText text = some (n, rest) ↔ n.Formed ∧ n.text ++ rest = text ∧
      ∀ w ∈ language, w <+: text → w.length ≤ n.text.length := by
  constructor
  · intro h
    refine ⟨.of_ofText h, text_ofText h, fun w hw hstarts => ?_⟩
    obtain ⟨m, hm, rfl⟩ := mem_language_iff.1 hw
    obtain ⟨left, rfl⟩ := hstarts
    obtain ⟨read, tail, hread, hsuffix, -⟩ := hm.ofText_append left
    have hlength := congrArg List.length (text_ofText hread)
    rw [hread] at h
    cases h
    have hle := hsuffix.length_le
    simp only [List.length_append] at hlength
    omega
  · rintro ⟨hn, rfl, hlongest⟩
    obtain ⟨read, tail, hread, hsuffix, -⟩ := hn.ofText_append rest
    have hformed := Formed.of_ofText hread
    have htext := text_ofText hread
    have hle := hlongest read.text (mem_language_iff.2 ⟨read, hformed, rfl⟩) ⟨tail, htext⟩
    obtain rfl : tail = rest := by
      refine hsuffix.eq_of_length_le ?_
      have hlength := congrArg List.length htext
      simp only [List.length_append] at hlength
      omega
    rw [hread, hformed.text_inj hn (List.append_cancel_right htext)]

/-- Nothing is read only if the text begins with no numeral. -/
theorem ofText_eq_none_iff {text : List Char} :
    ofText text = none ↔ ∀ w ∈ language, ¬ w <+: text := by
  constructor
  · rintro h w hw ⟨rest, rfl⟩
    obtain ⟨n, hn, rfl⟩ := mem_language_iff.1 hw
    obtain ⟨read, tail, hread, -⟩ := hn.ofText_append rest
    rw [h] at hread
    cases hread
  · intro h
    rw [Option.eq_none_iff_forall_ne_some]
    rintro ⟨n, rest⟩ hread
    exact h n.text (mem_language_iff.2 ⟨n, .of_ofText hread, rfl⟩) ⟨rest, text_ofText hread⟩

end Numeral
end Reckoner
