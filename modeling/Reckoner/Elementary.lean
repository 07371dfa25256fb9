import Reckoner.FormulaError

/-! The elementary functions a formula may call.

Six names, each with a fixed number of arguments. Angles are in radians; what has
no real value is not a number. `ofName?_name`: a name finds its function, and
`ofName?_eq_some_iff` says that nothing else does. -/
namespace Reckoner

inductive Elementary where
  | sin
  | cos
  | tan
  | sqrt
  | nthRoot
  | log
deriving DecidableEq, Repr

namespace Elementary

def name : Elementary → String
  | sin => "sin"
  | cos => "cos"
  | tan => "tan"
  | sqrt => "sqrt"
  | nthRoot => "nthroot"
  | log => "log"

/-- The number of arguments. -/
def arity : Elementary → Nat
  | sin | cos | tan | sqrt => 1
  | nthRoot | log => 2

def all : List Elementary := [sin, cos, tan, sqrt, nthRoot, log]

def ofName? (name : String) : Option Elementary :=
  all.find? fun f => f.name == name

/-- The function at its arguments, the first one first: a root's degree and a
logarithm's base come second. -/
def apply : Elementary → List Float → Except FormulaError Float
  | sin, [angle] => .ok angle.sin
  | cos, [angle] => .ok angle.cos
  | tan, [angle] => .ok angle.tan
  | sqrt, [v] => .ok v.sqrt
  | nthRoot, [radicand, degree] => .ok (radicand.pow (1 / degree))
  | log, [v, base] => .ok (v.log / base.log)
  | f, arguments => .error (.operandCount f.name f.arity arguments.length)

theorem ofName?_eq_some_iff {name : String} {f : Elementary} :
    ofName? name = some f ↔ f.name = name := by
  constructor
  · intro h
    simpa using List.find?_some h
  · rintro rfl
    cases f <;> decide

@[simp] theorem ofName?_name (f : Elementary) : ofName? f.name = some f :=
  ofName?_eq_some_iff.2 rfl

/-- A function takes its arguments exactly if they are as many as it asks for. -/
theorem apply_isOk_iff (f : Elementary) (arguments : List Float) :
    (∃ v, f.apply arguments = .ok v) ↔ arguments.length = f.arity := by
  match arguments with
  | [] => cases f <;> simp [apply, arity]
  | [_] => cases f <;> simp [apply, arity]
  | [_, _] => cases f <;> simp [apply, arity]
  | _ :: _ :: _ :: _ => cases f <;> simp [apply, arity]

end Elementary
end Reckoner
