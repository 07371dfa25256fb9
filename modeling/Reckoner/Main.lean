import Reckoner.Dialogue
import Reckoner.Sheet

/-! The command line: the calculator's dialogue on the terminal, or one of the
sheets. -/
namespace Reckoner

/-- Hold a dialogue on standard input and output. -/
def Dialogue.hold (input output : IO.FS.Stream) : Dialogue → IO Unit
  | .ask prompt next => do
    output.putStr prompt
    output.flush
    let line ← input.getLine
    (next (Text.lines line).head?).hold input output
  | .say line => output.putStr (line ++ "\n")
  | .stop => pure ()

end Reckoner

open Reckoner in
def main (arguments : List String) : IO Unit := do
  let output ← IO.getStdout
  match arguments with
  | ["results"] => output.putStr (Sheet.print Sheet.results)
  | ["areas"] => output.putStr (Sheet.print Sheet.areas)
  | _ => Dialogue.calculator.hold (← IO.getStdin) output
