/-! Bindings, the texts given for a formula's variables.

A variable is bound to a text, as it was typed; what number the text holds is the
evaluation's affair. Of two texts for one name the one bound last counts
(`get?_bind`). -/
namespace Reckoner

structure Bindings where
  entries : List (String × String)
deriving DecidableEq, Repr

namespace Bindings

def empty : Bindings := ⟨[]⟩

def bind (b : Bindings) (name text : String) : Bindings := ⟨(name, text) :: b.entries⟩

def ofList (entries : List (String × String)) : Bindings :=
  entries.foldl (fun b entry => b.bind entry.1 entry.2) empty

def get? (b : Bindings) (name : String) : Option String := b.entries.lookup name

@[simp] theorem get?_empty (name : String) : empty.get? name = none := rfl

theorem get?_bind (b : Bindings) (name text other : String) :
    (b.bind name text).get? other = if other = name then some text else b.get? other := by
  by_cases h : other = name
  · subst h
    simp [get?, bind]
  · simp [get?, bind, List.lookup_cons, h, beq_eq_false_iff_ne.2 h]

end Bindings
end Reckoner
