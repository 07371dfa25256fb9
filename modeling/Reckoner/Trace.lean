import Reckoner.Formula

/-! The record of an evaluation.

An evaluation for display records each stage it completes and, if it fails, the
failure; a blank text is not evaluated and leaves no record. `Event.line` is the
line in which an event is recorded. -/
namespace Reckoner

inductive Event where
  | read (text : String) (tokens : Nat)
  | compiled (sequence : Postfix)
  | evaluated (v : Float)
  | failed (text : String) (error : FormulaError)
deriving DecidableEq

def Event.line : Event → String
  | read text tokens => s!"Tokenized '{text}' into {tokens} tokens"
  | compiled tokens => "Postfix: " ++ Token.texts tokens
  | evaluated v => "Evaluated to " ++ Style.plain.write v
  | failed text error => s!"Formula '{text}' failed: {error.message}"

namespace Formula

/-- The events of an evaluation, up to the failure if there is one. -/
def stages (text : String) (b : Bindings) : List Event :=
  match Token.ofText text with
  | .error e => [.failed text e]
  | .ok tokens =>
    .read text tokens.length ::
      match Postfix.ofTokens tokens with
      | .error e => [.failed text e]
      | .ok sequence =>
        .compiled sequence ::
          match sequence.value b with
          | .error e => [.failed text e]
          | .ok v => [.evaluated v]

/-- The record of an evaluation for display. -/
def trace (text : String) (b : Bindings) : List Event :=
  if Text.allBlank text then [] else stages text b

end Formula
end Reckoner
