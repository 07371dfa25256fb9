import Reckoner.Formula

/-! Two sheets that show what formulas come to.

One gives results and refusals with their reasons, side by side with the
formulas; the other one formula under many bindings. -/
namespace Reckoner.Sheet

/-- A text set to the right of a column. -/
def alignRight (width : Nat) (text : String) : String :=
  String.ofList (List.replicate (width - text.length) ' ') ++ text

def formulas : List String :=
  ["sin^2(x)*2+sqrt(y)", "2x + 1", "log(y, 2)", "(x + 1", ""]

def bindings : Bindings := .ofList [("x", "0.5"), ("y", "16")]

/-- A formula with what is shown of it, and the reason if it fails. -/
def formulaLines (formula : String) : List String :=
  (alignRight 22 formula ++ " => " ++ Formula.display formula bindings) ::
    match Formula.evaluate formula bindings with
    | .ok _ => []
    | .error e => [alignRight 22 "" ++ "    (" ++ e.message ++ ")"]

def results : List String := formulas.flatMap formulaLines

def areaFormula : String := "3.14159r^2"

def radii : List String := ["1", "2", "abc", "4"]

/-- The outcome of one evaluation in a row of them. -/
def resultLine (result : Except FormulaError Float) (index : Nat) : String :=
  s!"Result {index}: " ++
    match result with
    | .ok v => "Ok(" ++ Style.plain.write v ++ ")"
    | .error e => "Err(" ++ e.message ++ ")"

/-- One formula under many bindings. -/
def areas : List String :=
  let contexts := radii.map fun radius => Bindings.ofList [("r", radius)]
  (contexts.map (Formula.evaluate areaFormula)).mapIdx fun index result => resultLine result index

/-- The lines of a sheet as one text. -/
def print (lines : List String) : String := String.join (lines.map (· ++ "\n"))

end Reckoner.Sheet
