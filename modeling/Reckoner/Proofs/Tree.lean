import Mathlib.Data.List.OfFn
import Reckoner.Value

/-! Formula trees.

A tree is what a formula means, whatever parentheses it was written with: numbers
and variables at the leaves, operators and functions above their operands. A
function may have any number of arguments; a tree is `Saturated` when each has as
many as it takes. `postorder` lists a tree with every operator and function after
its operands, and `value` is what the operations and functions give from the leaves
up; by `value_var`, `value_binary` and `value_call` it is what `raise` and `apply`
compute with. -/
namespace Reckoner

/-- The value of a function at as many arguments as it takes, the first one first. -/
def Elementary.value : Elementary → List Float → Float
  | .sin, [angle] => angle.sin
  | .cos, [angle] => angle.cos
  | .tan, [angle] => angle.tan
  | .sqrt, [v] => v.sqrt
  | .nthRoot, [radicand, degree] => radicand.pow (1 / degree)
  | .log, [v, base] => v.log / base.log
  | _, _ => Binary64.nan

theorem Elementary.apply_eq_ok {f : Elementary} {arguments : List Float}
    (h : arguments.length = f.arity) : f.apply arguments = .ok (f.value arguments) := by
  match arguments with
  | [] => cases f <;> cases h
  | [_] => cases f <;> simp_all [apply, value, arity]
  | [_, _] => cases f <;> simp_all [apply, value, arity]
  | _ :: _ :: _ :: _ => cases f <;> cases h

namespace Bindings

/-- The name is bound to a text. -/
def Binds (b : Bindings) (name : String) : Prop := (b.get? name).isSome

instance (b : Bindings) (name : String) : Decidable (b.Binds name) :=
  inferInstanceAs (Decidable ((b.get? name).isSome = true))

/-- The number that a bound variable's text holds. -/
def valueOf (b : Bindings) (name : String) : Float := readNumber ((b.get? name).getD "")

theorem number_eq_ok_iff {b : Bindings} {name : String} {v : Float} :
    b.number name = .ok v ↔ b.Binds name ∧ v = b.valueOf name := by
  unfold number Binds valueOf
  cases b.get? name with
  | none => simp
  | some text => simp [eq_comm]

theorem number_eq_error {b : Bindings} {name : String} (h : ¬ b.Binds name) :
    b.number name = .error (.undefinedVariable name) := by
  have hnone : b.get? name = none := by simpa [Binds] using h
  simp [number, hnone]

end Bindings

inductive Tree where
  | number (v : Float)
  | var (name : String) (power : Option Float)
  | binary (o : Operator) (left right : Tree)
  | call (f : Elementary) (power : Option Float) (count : Nat) (arguments : Fin count → Tree)

namespace Tree

/-- Every operator after its left and its right operand, every function after its
arguments. -/
def postorder : Tree → Postfix
  | number v => [.number v]
  | var name power => [.var name power]
  | binary o left right => left.postorder ++ right.postorder ++ [.operator o]
  | call f power _ arguments =>
    (List.ofFn fun i => (arguments i).postorder).flatten ++ [.call f power]

/-- The value of a tree whose variables are bound. A power that a name carries is one of
the variable's number, or of what the function gives. -/
def value (b : Bindings) : Tree → Float
  | number v => v
  | var name none => b.valueOf name
  | var name (some power) => (b.valueOf name).pow power
  | binary .add left right => left.value b + right.value b
  | binary .subtract left right => left.value b - right.value b
  | binary .multiply left right => left.value b * right.value b
  | binary .divide left right => left.value b / right.value b
  | binary .power left right => (left.value b).pow (right.value b)
  | call f none _ arguments => f.value (List.ofFn fun i => (arguments i).value b)
  | call f (some power) _ arguments =>
    (f.value (List.ofFn fun i => (arguments i).value b)).pow power

/-- The names of the variables, from left to right. -/
def names : Tree → List String
  | number _ => []
  | var name _ => [name]
  | binary _ left right => left.names ++ right.names
  | call _ _ _ arguments => (List.ofFn fun i => (arguments i).names).flatten

/-- Every function has as many arguments as it takes. -/
def Saturated : Tree → Prop
  | number _ => True
  | var _ _ => True
  | binary _ left right => left.Saturated ∧ right.Saturated
  | call f _ count arguments => count = f.arity ∧ ∀ i, (arguments i).Saturated

/-- Every variable of the tree is bound. -/
def BoundIn (b : Bindings) (t : Tree) : Prop := ∀ name ∈ t.names, b.Binds name

theorem postorder_call (f : Elementary) (power : Option Float) {count : Nat}
    (arguments : Fin count → Tree) :
    (call f power count arguments).postorder =
      ((List.ofFn arguments).map postorder).flatten ++ [.call f power] := by
  rw [postorder, List.map_ofFn]
  rfl

theorem postorder_apply (f : Elementary) (power : Option Float) (t : Tree) :
    (call f power 1 fun _ => t).postorder = t.postorder ++ [.call f power] := by
  simp [postorder]

theorem value_var (b : Bindings) (name : String) (power : Option Float) :
    (var name power).value b = raise (b.valueOf name) power := by
  cases power <;> rfl

theorem value_binary (b : Bindings) (o : Operator) (left right : Tree) :
    (binary o left right).value b = o.apply (left.value b) (right.value b) := by
  cases o <;> rfl

theorem value_call (b : Bindings) (f : Elementary) (power : Option Float) {count : Nat}
    (arguments : Fin count → Tree) :
    (call f power count arguments).value b =
      raise (f.value ((List.ofFn arguments).map (value b))) power := by
  rw [List.map_ofFn]
  cases power <;> rfl

theorem boundIn_binary {b : Bindings} {o : Operator} {left right : Tree} :
    (binary o left right).BoundIn b ↔ left.BoundIn b ∧ right.BoundIn b := by
  simp [BoundIn, names, or_imp, forall_and]

theorem boundIn_call {b : Bindings} {f : Elementary} {power : Option Float} {count : Nat}
    {arguments : Fin count → Tree} :
    (call f power count arguments).BoundIn b ↔ ∀ i, (arguments i).BoundIn b := by
  simp only [BoundIn, names, List.mem_flatten, List.mem_ofFn]
  constructor
  · intro h i name hname
    exact h name ⟨_, ⟨i, rfl⟩, hname⟩
  · rintro h name ⟨_, ⟨i, rfl⟩, hname⟩
    exact h i name hname

end Tree
end Reckoner
