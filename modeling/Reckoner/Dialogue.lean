import Reckoner.Session
import Reckoner.Text.Lines

/-! The dialogue that asks for a formula and its variables.

A `Dialogue` is a conversation by lines: it asks, and goes on by the line it gets,
or says a last line. `transcript` is all it prints when the lines it will get are
known. `calculator` asks for a formula, then for each of its variables, and says
the result that a session shows; a formula that cannot be read is answered with
what is wrong. -/
namespace Reckoner

inductive Dialogue where
  /-- Print a prompt and go on by the next line, of which there may be none. -/
  | ask (prompt : String) (next : Option String → Dialogue)
  /-- Print a line and stop. -/
  | say (line : String)
  | stop

namespace Dialogue

/-- All that is printed. An answer follows its prompt on the same line. -/
def transcript : Dialogue → List String → String
  | ask prompt next, lines => prompt ++ (next lines.head?).transcript lines.tail
  | say line, _ => line ++ "\n"
  | stop, _ => ""

/-- Ask for the variables that are still to be bound, then say the result, which a
new session shows. No line binds a variable to the empty text. -/
def askVariables (formula : String) : List String → Bindings → Dialogue
  | [], b =>
    let shown := (Session.start Session.defaultCapacity).display formula b
    .say ("Result: " ++ shown.outcome.text)
  | name :: rest, b =>
    .ask (name ++ ": ") fun line => askVariables formula rest (b.bind name (line.getD ""))

def calculator : Dialogue :=
  .ask "formula: " fun
    | none => .stop
    | some formula =>
      match Formula.freeVariables formula with
      | .ok names => askVariables formula names .empty
      | .error e => .say e.message

/-- The calculator's transcript on a text of lines. The input is valid text: a line of
bytes that are no UTF-8 fails to be read, and this failure ends the program outside of
the dialogue. -/
def calculate (input : String) : String := calculator.transcript (Text.lines input)

end Dialogue
end Reckoner
