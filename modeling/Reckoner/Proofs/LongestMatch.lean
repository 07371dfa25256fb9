import Reckoner.Proofs.Boundary

/-! The longest lexeme at every place.

`Lexeme.Formed` says which lexemes there are, and `Piece.IsCut` what it is to cut a text
into lexemes, each of which is the longest one at its place, and white space. A text that
can be read has exactly one such cut, and its tokens are those of the lexemes, with a `*`
after each that a factor follows: `ofText_eq_ok_iff_isCut`.

A lexeme is found character by character (`Lexeme.scan`), and every character of it
prolongs what was read. So a lexeme is the longest one at its place as soon as the next
character does not prolong it (`longestOf_iff`). -/
namespace Reckoner

namespace Lexeme

/-- The lexeme has characters of its kind: a number and a name one at least, a power
perhaps none. -/
inductive Formed : Lexeme → Prop where
  | number {run : String} : run ≠ "" → run.toList.all isNumeric → Formed (.number run)
  | name {name : String} : name ≠ "" → name.toList.all Char.isAlpha → Formed (.word name none)
  | power {name run : String} : name ≠ "" → name.toList.all Char.isAlpha →
    run.toList.all isNumeric → Formed (.word name (some run))
  | symbol (s : Symbol) : Formed (.symbol s)

/-- The text begins with the lexeme, and with no lexeme that is longer. -/
structure LongestOf (l : Lexeme) (cs : List Char) : Prop where
  formed : l.Formed
  starts : l.text <+: cs
  longest : ∀ other : Lexeme, other.Formed → other.text <+: cs →
    other.text.length ≤ l.text.length

/-! ### Lexemes character by character -/

theorem not_isNumeric_of_isAlpha {c : Char} (h : c.isAlpha) : isNumeric c = false := by
  have hdot : c ≠ '.' := by
    rintro rfl
    exact absurd h (by decide)
  have hrange := Text.toNat_of_isAlpha h
  simp [isNumeric, Char.isDigit, UInt32.le_iff_toNat_le, hdot]
  omega

theorem not_isBlank_of_start? {c : Char} {l : Lexeme} (h : start? c = some l) :
    Text.isBlank c = false := by
  unfold start? at h
  split at h
  · exact Text.not_isBlank_of_isNumeric ‹_›
  · split at h
    · exact Text.not_isBlank_of_isAlpha ‹_›
    · obtain ⟨s, hs, -⟩ := Option.map_eq_some_iff.1 h
      rw [← Symbol.ofChar?_eq_some_iff.1 hs]
      rcases s with (_ | _ | _ | _ | _) | _ | _ | _ <;> decide

/-- A family of lexemes that each hold a run of characters is prolonged by those it
takes, one after the other. -/
theorem foldlM_run {lexeme : String → Lexeme} {takes : Char → Bool}
    (hextend : ∀ run c, takes c → (lexeme run).extend? c = some (lexeme (run.push c)))
    {cs : List Char} (h : ∀ c ∈ cs, takes c) (run : String) :
    cs.foldlM extend? (lexeme run) = some (lexeme (run ++ String.ofList cs)) := by
  induction cs generalizing run with
  | nil => simp
  | cons c cs ih =>
    rw [List.forall_mem_cons] at h
    have hrun : run.push c ++ String.ofList cs = run ++ String.ofList (c :: cs) := by
      rw [← String.toList_inj]
      simp
    rw [List.foldlM_cons, hextend run c h.1]
    show cs.foldlM extend? (lexeme (run.push c)) = _
    rw [ih h.2, hrun]

/-- The lexeme that a text is, if it is one. -/
def scan : List Char → Option Lexeme
  | [] => none
  | c :: cs => (start? c).bind fun l => cs.foldlM extend? l

theorem scan_append {cs : List Char} (h : cs ≠ []) (ds : List Char) :
    scan (cs ++ ds) = (scan cs).bind fun l => ds.foldlM extend? l := by
  obtain ⟨c, cs, rfl⟩ := List.exists_cons_of_ne_nil h
  simp only [List.cons_append, scan, List.foldlM_append, Option.bind_assoc]
  rfl

/-- A run of characters is a lexeme of such a family if one of them begins one. -/
theorem scan_run {lexeme : String → Lexeme} {takes : Char → Bool}
    (hstart : ∀ c, takes c → start? c = some (lexeme (String.singleton c)))
    (hextend : ∀ run c, takes c → (lexeme run).extend? c = some (lexeme (run.push c)))
    {run : String} (hne : run ≠ "") (h : run.toList.all takes) :
    scan run.toList = some (lexeme run) := by
  obtain ⟨c, cs, htext⟩ := List.exists_cons_of_ne_nil (mt String.toList_eq_nil_iff.1 hne)
  have hrun : String.singleton c ++ String.ofList cs = run := by
    rw [← String.toList_inj, htext]
    simp
  rw [htext, List.all_cons, Bool.and_eq_true] at h
  rw [htext, scan, hstart c h.1, Option.bind_some,
    foldlM_run hextend (List.all_eq_true.1 h.2), hrun]

theorem scan_numeric {run : String} (hne : run ≠ "") (h : run.toList.all isNumeric) :
    scan run.toList = some (.number run) := by
  refine scan_run (fun c hc => ?_) (fun run c hc => ?_) hne h
  · rw [start?, if_pos hc]
  · rw [extend?, if_pos hc]

theorem scan_name {name : String} (hne : name ≠ "") (h : name.toList.all Char.isAlpha) :
    scan name.toList = some (.word name none) := by
  refine @scan_run (.word · none) Char.isAlpha (fun c hc => ?_) (fun run c hc => ?_) name hne h
  · rw [start?, not_isNumeric_of_isAlpha hc, if_neg Bool.false_ne_true, if_pos hc]
  · rw [extend?, if_pos hc]

theorem Formed.text_ne_nil {l : Lexeme} (h : l.Formed) : l.text ≠ [] := by
  cases h with
  | number hne _ => exact mt String.toList_eq_nil_iff.1 hne
  | name hne _ => exact mt String.toList_eq_nil_iff.1 hne
  | power hne _ _ => simp [text]
  | symbol s => simp [text]

/-- A lexeme is found again in its text. -/
theorem Formed.scan_text {l : Lexeme} (h : l.Formed) : scan l.text = some l := by
  cases h with
  | number hne hrun => exact scan_numeric hne hrun
  | name hne hname => exact scan_name hne hname
  | @power name run hne hname hrun =>
    have hnonempty := mt String.toList_eq_nil_iff.1 hne
    rw [text, scan_append hnonempty, scan_name hne hname, Option.bind_some, List.foldlM_cons]
    show run.toList.foldlM extend? (.word name (some "")) = _
    rw [@foldlM_run (.word name <| some ·) isNumeric (fun _ _ hc => by simp [extend?, hc]) _
      (List.all_eq_true.1 hrun), String.empty_append, String.ofList_toList]
  | symbol s => rcases s with (_ | _ | _ | _ | _) | _ | _ | _ <;> rfl

theorem formed_start? {c : Char} {l : Lexeme} (h : start? c = some l) : l.Formed := by
  unfold start? at h
  split at h
  · cases h
    exact .number (by simp) (by simpa)
  · split at h
    · cases h
      exact .name (by simp) (by simpa)
    · obtain ⟨s, -, rfl⟩ := Option.map_eq_some_iff.1 h
      exact .symbol s

theorem Formed.extend? {l longer : Lexeme} {c : Char} (hl : l.Formed)
    (h : l.extend? c = some longer) : longer.Formed := by
  cases hl with
  | number hne hrun =>
    simp only [Lexeme.extend?] at h
    split at h <;> cases h
    exact .number (by simp) (by simp_all)
  | name hne hname =>
    simp only [Lexeme.extend?] at h
    split at h
    · cases h
      exact .name (by simp) (by simp_all)
    · split at h <;> cases h
      exact .power hne hname rfl
  | power hne hname hrun =>
    simp only [Lexeme.extend?] at h
    split at h <;> cases h
    exact .power hne hname (by simp_all)
  | symbol s => cases h

/-- A lexeme is the longest one at its place if what comes right after it does not
prolong it. -/
theorem longestOf_iff {l : Lexeme} (hl : l.Formed) (cs : List Char) :
    l.LongestOf (l.text ++ cs) ↔ ∀ c ∈ cs.head?, l.extend? c = none := by
  constructor
  · intro h c hc
    obtain ⟨rest, rfl⟩ := List.head?_eq_some_iff.1 hc
    by_contra hextend
    obtain ⟨longer, hlonger⟩ := Option.ne_none_iff_exists'.1 hextend
    have htext := Piece.text_extend? hlonger
    have hle := h.longest longer (hl.extend? hlonger) (by simp [htext])
    rw [htext, List.length_append, List.length_singleton] at hle
    omega
  · intro h
    refine ⟨hl, List.prefix_append _ _, fun other hother hstarts => ?_⟩
    by_contra hlonger
    obtain ⟨more, hmore⟩ : l.text <+: other.text :=
      List.prefix_of_prefix_length_le (List.prefix_append _ _) hstarts (by omega)
    -- The next character of the longer lexeme would have prolonged the shorter one.
    cases more with
    | nil =>
      rw [← hmore, List.append_nil] at hlonger
      omega
    | cons c more =>
      rw [← hmore, List.prefix_append_right_inj] at hstarts
      obtain ⟨rest, rfl⟩ := hstarts
      have hscan := hother.scan_text
      rw [← hmore, scan_append hl.text_ne_nil, hl.scan_text, Option.bind_some, List.foldlM_cons,
        h c rfl] at hscan
      cases hscan

/-- Characters that prolong a lexeme one after the other go into it. -/
theorem cutFrom_of_foldlM {l longer : Lexeme} {cs : List Char}
    (h : cs.foldlM Lexeme.extend? l = some longer) (rest : List Char) :
    Piece.cutFrom (.lexeme l) (cs ++ rest) = Piece.cutFrom (.lexeme longer) rest := by
  induction cs generalizing l with
  | nil =>
    cases h
    rfl
  | cons c cs ih =>
    rw [List.foldlM_cons] at h
    obtain ⟨next, hnext, h⟩ := Option.bind_eq_some_iff.1 h
    rw [List.cons_append, Piece.cutFrom, Piece.extend?, hnext]
    exact ih h

end Lexeme

/-! ### Cuts -/

namespace Piece

/-- Every lexeme among the pieces is the longest one at its place, and what is none is
white space. -/
def Munched : List Piece → Prop
  | [] => True
  | blank c :: rest => Text.isBlank c ∧ Munched rest
  | lexeme l :: rest => l.LongestOf (l.text ++ rest.flatMap text) ∧ Munched rest

/-- The pieces are the text, cut into white space and the longest lexemes. -/
structure IsCut (cs : List Char) (pieces : List Piece) : Prop where
  text : pieces.flatMap text = cs
  munched : Munched pieces

/-- The piece is a lexeme or white space. -/
def Formed : Piece → Prop
  | blank c => Text.isBlank c
  | lexeme l => l.Formed

theorem formed_start {c : Char} {piece : Piece} (h : start c = .ok piece) : piece.Formed := by
  unfold start at h
  split at h
  · cases h
    assumption
  · split at h
    · cases h
      exact Lexeme.formed_start? ‹_›
    · cases h

theorem Formed.extend? {piece longer : Piece} {c : Char} (hpiece : piece.Formed)
    (h : piece.extend? c = some longer) : longer.Formed := by
  cases piece with
  | blank => cases h
  | lexeme l =>
    obtain ⟨l', hl', rfl⟩ := Option.map_eq_some_iff.1 h
    exact Lexeme.Formed.extend? hpiece hl'

/-- A piece that the text after it does not prolong, before pieces that are munched. -/
theorem Formed.munched_cons {piece : Piece} {rest : List Piece} (hpiece : piece.Formed)
    (hrest : Munched rest) (hnext : ∀ c ∈ (rest.flatMap text).head?, piece.extend? c = none) :
    Munched (piece :: rest) := by
  cases piece with
  | blank c => exact ⟨hpiece, hrest⟩
  | lexeme l =>
    refine ⟨(Lexeme.longestOf_iff hpiece _).2 fun c hc => ?_, hrest⟩
    exact Option.map_eq_none_iff.1 (hnext c hc)

theorem munched_cutFrom {piece : Piece} {cs : List Char} {pieces : List Piece}
    (hpiece : piece.Formed) (h : cutFrom piece cs = .ok pieces) : Munched pieces := by
  induction cs generalizing piece pieces with
  | nil =>
    cases h
    exact hpiece.munched_cons trivial nofun
  | cons c cs ih =>
    rcases cutFrom_cons_eq_ok_iff.1 h with ⟨longer, hlonger, hpieces⟩ |
      ⟨hextend, next, more, hnext, hmore, rfl⟩
    · exact ih (hpiece.extend? hlonger) hpieces
    · refine hpiece.munched_cons (ih (formed_start hnext) hmore) fun c' hc' => ?_
      rw [text_cutFrom hmore, text_start hnext] at hc'
      cases hc'
      exact hextend

theorem munched_cut {cs : List Char} {pieces : List Piece} (h : cut cs = .ok pieces) :
    Munched pieces := by
  cases cs with
  | nil =>
    cases h
    trivial
  | cons c cs =>
    obtain ⟨piece, hstart, hpieces⟩ := cut_cons_eq_ok_iff.1 h
    exact munched_cutFrom (formed_start hstart) hpieces

/-- A lexeme that the text after it does not prolong is cut off. -/
theorem cut_lexeme {l : Lexeme} (hl : l.Formed) {cs : List Char}
    (hnext : ∀ c ∈ cs.head?, l.extend? c = none) :
    cut (l.text ++ cs) = do
      let pieces ← cut cs
      return lexeme l :: pieces := by
  have hscan := hl.scan_text
  obtain ⟨c, run, htext⟩ := List.exists_cons_of_ne_nil hl.text_ne_nil
  rw [htext, Lexeme.scan] at hscan
  obtain ⟨first, hfirst, hfold⟩ := Option.bind_eq_some_iff.1 hscan
  have hstart : start c = .ok (lexeme first) := by
    simp [start, hfirst, Lexeme.not_isBlank_of_start? hfirst]
  rw [htext, List.cons_append, cut, hstart]
  show cutFrom (lexeme first) (run ++ cs) = _
  rw [Lexeme.cutFrom_of_foldlM hfold]
  cases cs with
  | nil => rfl
  | cons c' cs =>
    rw [cutFrom, extend?, hnext c' rfl, cut, bind_assoc]
    rfl

theorem cut_of_munched {pieces : List Piece} (h : Munched pieces) :
    cut (pieces.flatMap text) = .ok pieces := by
  induction pieces with
  | nil => rfl
  | cons piece rest ih =>
    cases piece with
    | blank c =>
      show cut (c :: rest.flatMap text) = _
      rw [cut_blank h.1, ih h.2]
      rfl
    | lexeme l =>
      have hformed := h.1.formed
      show cut (l.text ++ rest.flatMap text) = _
      rw [cut_lexeme hformed ((Lexeme.longestOf_iff hformed _).1 h.1), ih h.2]
      rfl

/-- A text is cut into white space and the longest lexemes, if it can be cut so. -/
theorem cut_eq_ok_iff {cs : List Char} {pieces : List Piece} :
    cut cs = .ok pieces ↔ IsCut cs pieces := by
  constructor
  · exact fun h => ⟨text_cut h, munched_cut h⟩
  · intro h
    rw [← h.text]
    exact cut_of_munched h.munched

end Piece

/-! ### The tokens of a cut -/

namespace Lexeme

/-- The power that a run stands for: none at all is not a number. -/
def powerOf (run : String) : Float := if run = "" then Binary64.nan else readNumber run

/-- What a lexeme means. A name is a function's if it is one's whole name, and else a
variable's. -/
inductive Denotes : Lexeme → Token → Prop where
  | number (run : String) : Denotes (.number run) (.number (readNumber run))
  | var {name : String} (power : Option String) : (∀ f : Elementary, f.name ≠ name) →
    Denotes (.word name power) (.var name (power.map powerOf))
  | call (f : Elementary) (power : Option String) :
    Denotes (.word f.name power) (.call f (power.map powerOf))
  | symbol (s : Symbol) : Denotes (.symbol s) (.symbol s)

end Lexeme

/-- The character, right after the token, begins a factor. -/
def Token.BeforeFactor : Token → Char → Prop
  | .number _, c => c = '(' ∨ c.isAlpha
  | .var _ _, c => c = '(' ∨ c.isAlpha ∨ c.isDigit
  | .call _ _, c => c.isAlpha ∨ c.isDigit
  | .symbol _, _ => False

/-- The pieces mean the tokens: every lexeme one, with a `*` after it if the character
right after the lexeme begins a factor. -/
inductive Piece.Give : List Piece → List Token → Prop where
  | nil : Give [] []
  | blank (c : Char) {rest : List Piece} {tokens : List Token} :
    Give rest tokens → Give (.blank c :: rest) tokens
  | lexeme {l : Lexeme} {t : Token} {rest : List Piece} {tokens : List Token} : l.Denotes t →
    (∀ c ∈ (rest.flatMap text).head?, ¬ t.BeforeFactor c) → Give rest tokens →
    Give (.lexeme l :: rest) (t :: tokens)
  | factor {l : Lexeme} {t : Token} {c : Char} {rest : List Piece} {tokens : List Token} :
    l.Denotes t → c ∈ (rest.flatMap text).head? → t.BeforeFactor c → Give rest tokens →
    Give (.lexeme l :: rest) (t :: .operator .multiply :: tokens)

namespace Lexeme

theorem powerOf_eq (run : String) : powerOf run = readNumber run := by
  unfold powerOf
  by_cases h : run = ""
  · rw [if_pos h, h]
    rfl
  · rw [if_neg h]

theorem denotes_iff {l : Lexeme} {t : Token} : l.Denotes t ↔ l.token = t := by
  have hpower : powerOf = readNumber := funext powerOf_eq
  constructor
  · intro h
    cases h with
    | number run => rfl
    | @var name power hname =>
      have hnone : Elementary.ofName? name = none :=
        Option.eq_none_iff_forall_ne_some.2 fun f hf => hname f (Elementary.ofName?_eq_some_iff.1 hf)
      rw [token, Token.ofName, hnone, hpower]
    | call f power => rw [token, Token.ofName, Elementary.ofName?_name, hpower]
    | symbol s => rfl
  · intro h
    subst h
    cases l with
    | number run => exact .number run
    | symbol s => exact .symbol s
    | word name power =>
      rw [token, Token.ofName, ← hpower]
      cases hname : Elementary.ofName? name with
      | some f =>
        obtain rfl := Elementary.ofName?_eq_some_iff.1 hname
        exact .call f power
      | none =>
        refine .var power fun f hf => ?_
        rw [Elementary.ofName?_eq_some_iff.2 hf] at hname
        cases hname

theorem multiplies_iff {l : Lexeme} {next : Option Char} :
    l.multiplies next ↔ ∃ c ∈ next, l.token.BeforeFactor c := by
  unfold multiplies Token.BeforeFactor
  cases next with
  | none => simp
  | some c => cases l.token <;> simp [Char.isAlphanum]

end Lexeme

namespace Piece

/-- The character after pieces is the first one of the text that follows them. -/
theorem first?_eq_head? {pieces : List Piece} (h : Munched pieces) :
    first? pieces = (pieces.flatMap text).head? := by
  cases pieces with
  | nil => rfl
  | cons piece rest =>
    cases piece with
    | blank c => rfl
    | lexeme l =>
      obtain ⟨c, run, htext⟩ := List.exists_cons_of_ne_nil h.1.formed.text_ne_nil
      simp [first?, text, htext]

theorem give_ofPieces {pieces : List Piece} (h : Munched pieces) :
    Give pieces (Token.ofPieces pieces) := by
  induction pieces with
  | nil => exact .nil
  | cons piece rest ih =>
    cases piece with
    | blank c => exact .blank c (ih h.2)
    | lexeme l =>
      have hdenotes := Lexeme.denotes_iff.2 (rfl : l.token = l.token)
      rw [Token.ofPieces, Lexeme.tokens]
      by_cases hfactor : l.multiplies (first? rest)
      · rw [if_pos hfactor]
        obtain ⟨c, hc, hbefore⟩ := Lexeme.multiplies_iff.1 hfactor
        rw [first?_eq_head? h.2] at hc
        exact .factor hdenotes hc hbefore (ih h.2)
      · rw [if_neg hfactor]
        rw [Lexeme.multiplies_iff, first?_eq_head? h.2] at hfactor
        exact .lexeme hdenotes (fun c hc hbefore => hfactor ⟨c, hc, hbefore⟩) (ih h.2)

theorem ofPieces_of_give {pieces : List Piece} {tokens : List Token} (h : Munched pieces)
    (hgive : Give pieces tokens) : Token.ofPieces pieces = tokens := by
  induction hgive with
  | nil => rfl
  | blank c _ ih => exact ih h.2
  | @lexeme l t rest tokens hdenotes hnone _ ih =>
    obtain rfl := Lexeme.denotes_iff.1 hdenotes
    have hfactor : ¬ l.multiplies (first? rest) := by
      rw [Lexeme.multiplies_iff, first?_eq_head? h.2]
      exact fun ⟨c, hc, hbefore⟩ => hnone c hc hbefore
    rw [Token.ofPieces, Lexeme.tokens, if_neg hfactor, ih h.2]
    rfl
  | @factor l t c rest tokens hdenotes hc hbefore _ ih =>
    obtain rfl := Lexeme.denotes_iff.1 hdenotes
    have hfactor : l.multiplies (first? rest) := by
      rw [Lexeme.multiplies_iff, first?_eq_head? h.2]
      exact ⟨c, hc, hbefore⟩
    rw [Token.ofPieces, Lexeme.tokens, if_pos hfactor, ih h.2]
    rfl

end Piece

/-- **A text that can be read is cut in exactly one way into white space and lexemes,
each the longest one at its place, and its tokens are those that the pieces give.** -/
theorem Token.ofText_eq_ok_iff_isCut (text : String) (tokens : List Token) :
    ofText text = .ok tokens ↔
      ∃ pieces, Piece.IsCut text.toList pieces ∧
        (∀ other, Piece.IsCut text.toList other → other = pieces) ∧ Piece.Give pieces tokens := by
  rw [ofText_eq_ok_iff]
  constructor
  · rintro ⟨pieces, hcut, rfl⟩
    have hpieces := Piece.cut_eq_ok_iff.1 hcut
    refine ⟨pieces, hpieces, fun other hother => ?_, Piece.give_ofPieces hpieces.munched⟩
    have hsame := hcut.symm.trans (Piece.cut_eq_ok_iff.2 hother)
    cases hsame
    rfl
  · rintro ⟨pieces, hpieces, -, hgive⟩
    exact ⟨pieces, Piece.cut_eq_ok_iff.2 hpieces, Piece.ofPieces_of_give hpieces.munched hgive⟩

/-- Two factors begin without a space, the argument of a function is none, and a power
that has no digits is not a number. -/
example : Token.ofText "3x^2sin(y^ z" =
    .ok [.number 3, .operator .multiply, .var "x" (some 2), .operator .multiply, .call .sin none,
      .symbol .leftParen, .var "y" (some Binary64.nan), .var "z" none] := by decide +kernel

end Reckoner
