import Reckoner.Dialogue
import Reckoner.Proofs.Outcomes
import Reckoner.Proofs.Variables

/-! What the calculator asks, and what it says in the end.

A dialogue is a row of exchanges, a prompt and the line that it gets, if there is one; then it
may say a last line (`transcript_eq`). The calculator asks for the formula and for each of its
variables, one line each (`exchanges_calculator`), and says last what is shown of the formula
under these lines (`lastLine_calculator`).

All variables are bound then, and what is shown is of the kind that can be told from the formula
alone (`foretold_display`): a number if the formula has a value under any bindings at all. The
lines for the variables decide which number it is, but not whether it is one:
`calculate_asks`. -/
namespace Reckoner

/-! ### Lines as values -/

namespace Bindings

/-- The bindings after each name has been bound to a line of its own, or to the empty text when
no line is left. -/
def answered (b : Bindings) : List String → List String → Bindings
  | [], _ => b
  | name :: names, lines => (b.bind name (lines.head?.getD "")).answered names lines.tail

/-- Distinct names are bound to the lines at their own places. -/
theorem get?_answered {names : List String} (hnames : names.Nodup) (b : Bindings)
    (lines : List String) (name : String) :
    (b.answered names lines).get? name =
      ((names.idxOf? name).map fun i => lines[i]?.getD "").or (b.get? name) := by
  induction names generalizing b lines with
  | nil => rfl
  | cons first names ih =>
    obtain ⟨hfirst, hrest⟩ := List.nodup_cons.1 hnames
    rw [answered, ih hrest, get?_bind, List.idxOf?_cons]
    by_cases hname : name = first
    · subst hname
      have hnone : names.idxOf? name = none := List.idxOf?_eq_none_iff.2 hfirst
      simp [hnone, List.head?_eq_getElem?]
    · have hne : ¬ (first == name) = true := by simpa using Ne.symm hname
      simp [hname, hne, Option.map_map, Function.comp_def]

/-- All of the names are bound, however few the lines are. -/
theorem binds_answered {names : List String} (hnames : names.Nodup) (b : Bindings)
    (lines : List String) {name : String} (h : name ∈ names) :
    (b.answered names lines).Binds name := by
  have hplace : (names.idxOf? name).isSome := List.isSome_idxOf?.2 h
  rw [Binds, get?_answered hnames, Option.isSome_or, Option.isSome_map, hplace, Bool.true_or]

end Bindings

/-! ### Dialogues -/

namespace Dialogue

/-- The prompts of a dialogue, each with the line that it goes on by. -/
def exchanges : Dialogue → List String → List (String × Option String)
  | ask prompt next, lines => (prompt, lines.head?) :: (next lines.head?).exchanges lines.tail
  | say _, _ => []
  | stop, _ => []

/-- The line that a dialogue ends with. -/
def lastLine : Dialogue → List String → Option String
  | ask _ next, lines => (next lines.head?).lastLine lines.tail
  | say line, _ => some line
  | stop, _ => none

/-- The prompts are printed in their order, and then the last line. -/
theorem transcript_eq (d : Dialogue) (lines : List String) :
    d.transcript lines = String.join ((d.exchanges lines).map Prod.fst) ++
      ((d.lastLine lines).map (· ++ "\n")).getD "" := by
  induction d generalizing lines with
  | ask prompt next ih =>
    simp only [transcript, exchanges, lastLine, ih, List.map_cons, String.join_cons,
      String.append_assoc]
  | say line => simp [transcript, exchanges, lastLine]
  | stop => simp [transcript, exchanges, lastLine]

theorem exchanges_askVariables (formula : String) (names : List String) (b : Bindings)
    (lines : List String) :
    (askVariables formula names b).exchanges lines =
      names.mapIdx fun i name => (name ++ ": ", lines[i]?) := by
  induction names generalizing b lines with
  | nil => rfl
  | cons name names ih =>
    simp [askVariables, exchanges, ih, List.head?_eq_getElem?]

theorem lastLine_askVariables (formula : String) (names : List String) (b : Bindings)
    (lines : List String) :
    (askVariables formula names b).lastLine lines =
      some ("Result: " ++ Formula.display formula (b.answered names lines)) := by
  induction names generalizing b lines with
  | nil =>
    show some ("Result: " ++ ((Session.start _).display formula b).outcome.text) = _
    rw [Session.outcome_display]
    rfl
  | cons name names ih => exact ih ..

end Dialogue

/-! ### The kind of an outcome -/

namespace Formula

/-- The formula has a value under some bindings. -/
def HasValue (text : String) : Prop := ∃ b v, evaluate text b = .ok v

/-- What is shown is of the kind that can be told from the formula, without the bindings that it
is shown under. -/
structure Foretold (text : String) (shown : String) : Prop where
  blank : shown = Outcome.blank.text ↔ Token.ofText text = .ok []
  failure : shown = Outcome.failure.text ↔ Token.ofText text ≠ .ok [] ∧ ¬ HasValue text
  value : (∃ v, shown = Style.result.write v) ↔ HasValue text

variable {text : String} {tokens : List Token} {b : Bindings}

theorem not_undefined_of_bound (htokens : Token.ofText text = .ok tokens)
    (hbound : b.firstUnbound? (Token.names tokens) = none) (name : String) :
    evaluate text b ≠ .error (.undefinedVariable name) := by
  intro h
  cases hbound.symm.trans (firstUnbound?_of_evaluate htokens h)

/-- With its variables bound a formula has a value if it has one under any bindings. -/
theorem hasValue_iff (htokens : Token.ofText text = .ok tokens)
    (hbound : b.firstUnbound? (Token.names tokens) = none) :
    HasValue text ↔ ∃ v, evaluate text b = .ok v := by
  constructor
  · intro h
    obtain ⟨sequence, ⟨b', hvalue⟩, hnames, heval⟩ := exists_sequence htokens h
    rw [← hnames] at hbound
    simpa only [heval] using Postfix.value_isOk_of_bound hvalue hbound
  · exact fun h => ⟨b, h⟩

/-- What is shown of a formula whose variables are bound is foretold. -/
theorem foretold_display (htokens : Token.ofText text = .ok tokens)
    (hbound : b.firstUnbound? (Token.names tokens) = none) : Foretold text (display text b) := by
  have hshown : Shown text b (display text b) := shown_outcome text b
  have hnonblank : Text.allBlank text = false ↔ Token.ofText text ≠ .ok [] := by
    rw [Ne, Token.ofText_eq_nil_iff, Bool.not_eq_true]
  have herror : (∃ e, evaluate text b = .error e) ↔ ¬ HasValue text := by
    rw [hasValue_iff htokens hbound]
    cases evaluate text b <;> simp
  refine ⟨hshown.blank, hshown.failure.trans (and_congr hnonblank herror), fun ⟨v, hv⟩ => ?_,
    fun h => ?_⟩
  · obtain ⟨v, hvalue, -⟩ := hshown.value (hv ▸ write_ne_of_mem (by decide) v)
      (hv ▸ write_ne_of_mem (by decide) v)
    exact ⟨b, v, hvalue⟩
  · obtain ⟨v, hvalue⟩ := (hasValue_iff htokens hbound).1 h
    exact ⟨v, by rw [display, outcome_of_evaluate hvalue, Outcome.text]⟩

end Formula

/-! ### The calculator -/

namespace Dialogue

section Formula
variable {formula : String} {names : List String} (h : Formula.freeVariables formula = .ok names)
include h

theorem exchanges_calculator (lines : List String) :
    calculator.exchanges (formula :: lines) =
      ("formula: ", some formula) :: names.mapIdx fun i name => (name ++ ": ", lines[i]?) := by
  simp [calculator, exchanges, h, exchanges_askVariables]

theorem lastLine_calculator (lines : List String) :
    calculator.lastLine (formula :: lines) =
      some ("Result: " ++ Formula.display formula (Bindings.empty.answered names lines)) := by
  simp [calculator, lastLine, h, lastLine_askVariables]

theorem transcript_calculator (lines : List String) :
    calculator.transcript (formula :: lines) =
      "formula: " ++ String.join (names.map (· ++ ": ")) ++ "Result: " ++
        Formula.display formula (Bindings.empty.answered names lines) ++ "\n" := by
  have hprompts : (names.mapIdx fun i name => (name ++ ": ", lines[i]?)).map Prod.fst =
      names.map (· ++ ": ") := List.ext_getElem? fun i => by simp [Function.comp_def]
  rw [transcript_eq, exchanges_calculator h, lastLine_calculator h, List.map_cons, hprompts,
    String.join_cons, Option.map_some, Option.getD_some]
  simp only [String.append_assoc]

end Formula

/-- **The calculator asks for what the formula needs**, and for nothing else. Of a text whose
first line is a formula that can be read it takes one more line for each of the formula's
variables, for which it asks in the order in which they first appear, and no other lines. Each
variable is bound to its line, or to the empty text, which is not a number, where there is none;
and the formula is shown under exactly these bindings, as a session would show it. No variable
is missed, and what is shown is of the kind that the formula foretells, whatever the other
lines are. The input is valid text, every line of which can be read. -/
theorem calculate_asks {input formula : String} {lines : List String} {tokens : List Token}
    (hlines : Text.lines input = formula :: lines) (htokens : Token.ofText formula = .ok tokens) :
    let names := (Token.names tokens).eraseDups
    ∃ b : Bindings,
      calculator.exchanges (Text.lines input) =
        ("formula: ", some formula) :: names.mapIdx (fun i name => (name ++ ": ", lines[i]?)) ∧
      (∀ name, b.get? name = (names.idxOf? name).map fun i => lines[i]?.getD "") ∧
      (readNumber "").isNaN ∧
      calculate input = "formula: " ++ String.join (names.map (· ++ ": ")) ++ "Result: " ++
        Formula.display formula b ++ "\n" ∧
      (∀ s : Session, (s.step (.display formula b)).1.answer =
        .shown (Formula.outcome formula b)) ∧
      (∀ name, Formula.evaluate formula b ≠ .error (.undefinedVariable name)) ∧
      Formula.Foretold formula (Formula.display formula b) := by
  intro names
  have hdistinct : names.Nodup := nodup_eraseDups _
  have hfree : Formula.freeVariables formula = .ok names :=
    Formula.freeVariables_eq_ok_iff.2 ⟨tokens, htokens, rfl⟩
  let b := Bindings.empty.answered names lines
  have hvalues : ∀ name, b.get? name = (names.idxOf? name).map fun i => lines[i]?.getD "" := by
    intro name
    rw [Bindings.get?_answered hdistinct, Bindings.get?_empty, Option.or_none]
  have hbound : b.firstUnbound? (Token.names tokens) = none :=
    Bindings.firstUnbound?_eq_none_iff.2 fun name hname =>
      Bindings.binds_answered hdistinct .empty lines (List.mem_eraseDups.2 hname)
  rw [calculate, hlines]
  exact ⟨b, exchanges_calculator hfree lines, hvalues, by decide +kernel,
    transcript_calculator hfree lines, fun s => s.answer_step _,
    Formula.not_undefined_of_bound htokens hbound, Formula.foretold_display htokens hbound⟩

/-- Two variables, a line for the first of them and none for the second. -/
theorem calculate_asks_short :
    Text.lines "y*x + y^2\r\n3" = ["y*x + y^2", "3"] ∧
    Token.ofText "y*x + y^2" = .ok [.var "y" none, .operator .multiply, .var "x" none,
      .operator .add, .var "y" (some 2)] ∧
    calculator.exchanges ["y*x + y^2", "3"] =
      [("formula: ", some "y*x + y^2"), ("y: ", some "3"), ("x: ", none)] ∧
    ∃ v, calculate "y*x + y^2\r\n3" =
      "formula: y: x: Result: " ++ Style.result.write v ++ "\n" := by
  have hlines : Text.lines "y*x + y^2\r\n3" = ["y*x + y^2", "3"] := by decide
  have htokens : Token.ofText "y*x + y^2" = .ok [.var "y" none, .operator .multiply,
      .var "x" none, .operator .add, .var "y" (some 2)] := by decide +kernel
  have hvalue : Formula.HasValue "y*x + y^2" :=
    ⟨.ofList [("y", "3"), ("x", "1")], _, rfl⟩
  obtain ⟨b, hexchanges, -, -, hprinted, -, -, hforetold⟩ := calculate_asks hlines htokens
  obtain ⟨v, hv⟩ := hforetold.value.2 hvalue
  rw [hlines] at hexchanges
  rw [hv] at hprinted
  exact ⟨hlines, htokens, hexchanges, v, hprinted⟩

end Dialogue
end Reckoner
