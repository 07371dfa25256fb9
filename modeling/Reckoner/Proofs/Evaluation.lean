import Reckoner.Proofs.Tree

/-! Evaluation of tokens in postfix order.

The tokens that evaluate are the postorders of trees, and they come to the value of
the tree: `value_eq_ok_iff`. In the one direction the postorder of a tree puts the
tree's value on the stack, above what was there (`stackAfter_postorder`). In the
other the stack holds, at every time, the values of a row of trees whose postorders
are the tokens so far (`act_row`, `stackAfter_row`). -/
namespace Reckoner

/-- The tree can be evaluated: functions have as many arguments as they take, and
variables are bound. -/
structure Tree.Defined (b : Bindings) (t : Tree) : Prop where
  saturated : t.Saturated
  bound : t.BoundIn b

namespace Postfix
open Reckoner.Tree (Defined)

/-! ### Trees evaluate -/

theorem operands_reverse_append (symbol : String) (values below : List Float) :
    operands symbol values.length (values.reverse ++ below) = .ok (values, below) := by
  have hlength : ¬ (values.reverse ++ below).length < values.length := by simp
  rw [operands, if_neg hlength, List.take_left' (by simp), List.drop_left' (by simp),
    List.reverse_reverse]

/-- Trees in a row leave their values, the last one on top. -/
theorem stackAfter_flatten {b : Bindings} {trees : List Tree}
    (h : ∀ t ∈ trees, ∀ stack, stackAfter b stack t.postorder = .ok (t.value b :: stack))
    (stack : List Float) :
    stackAfter b stack (trees.map Tree.postorder).flatten =
      .ok ((trees.map (Tree.value b)).reverse ++ stack) := by
  induction trees generalizing stack with
  | nil => rfl
  | cons t trees ih =>
    rw [List.forall_mem_cons] at h
    rw [List.map_cons, List.flatten_cons, stackAfter_append, h.1]
    simp only [Except.ok_bind, ih h.2, List.map_cons, List.reverse_cons, List.append_assoc]
    rfl

theorem act_call {b : Bindings} {f : Elementary} {values : List Float}
    (h : values.length = f.arity) (power : Option Float) (below : List Float) :
    act b (values.reverse ++ below) (.call f power) = .ok (raise (f.value values) power :: below) := by
  simp only [act, ← h, operands_reverse_append, Except.ok_bind, Elementary.apply_eq_ok h]
  rfl

theorem stackAfter_postorder {b : Bindings} {t : Tree} (ht : t.Saturated) (hb : t.BoundIn b)
    (stack : List Float) : stackAfter b stack t.postorder = .ok (t.value b :: stack) := by
  induction t generalizing stack with
  | number v => rfl
  | var name power =>
    have hnumber : b.number name = .ok (b.valueOf name) :=
      Bindings.number_eq_ok_iff.2 ⟨hb name (List.mem_singleton.2 rfl), rfl⟩
    simp only [Tree.postorder, stackAfter, act, hnumber, Tree.value_var]
    rfl
  | binary o left right ihl ihr =>
    have hbound := Tree.boundIn_binary.1 hb
    rw [Tree.postorder, stackAfter_append, stackAfter_append, ihl ht.1 hbound.1]
    simp only [Except.ok_bind, ihr ht.2 hbound.2, Tree.value_binary]
    rfl
  | call f power count arguments ih =>
    have hrow : ∀ t ∈ List.ofFn arguments, ∀ stack,
        stackAfter b stack t.postorder = .ok (t.value b :: stack) := by
      rw [List.forall_mem_ofFn_iff]
      exact fun i => ih i (ht.2 i) (Tree.boundIn_call.1 hb i)
    have hlength : ((List.ofFn arguments).map (Tree.value b)).length = f.arity := by
      rw [List.length_map, List.length_ofFn, ht.1]
    rw [Tree.postorder_call, stackAfter_append, stackAfter_flatten hrow, Tree.value_call]
    simp only [Except.ok_bind, stackAfter, act_call hlength]

/-! ### What evaluates is a tree -/

/-- The postorders of trees in a row, the last one first. -/
def rowPostorder (row : List Tree) : Postfix := (row.reverse.map Tree.postorder).flatten

theorem rowPostorder_cons (t : Tree) (row : List Tree) :
    rowPostorder (t :: row) = rowPostorder row ++ t.postorder := by
  simp [rowPostorder]

theorem rowPostorder_append (upper lower : List Tree) :
    rowPostorder (upper ++ lower) = rowPostorder lower ++ rowPostorder upper := by
  simp [rowPostorder]

/-- The top trees of a row become the arguments of a function. -/
theorem act_call_row {b : Bindings} {row : List Tree} {f : Elementary} {power : Option Float}
    {stack : List Float} (hrow : ∀ tree ∈ row, Defined b tree)
    (h : act b (row.map (Tree.value b)) (.call f power) = .ok stack) :
    ∃ row', (∀ tree ∈ row', Defined b tree) ∧ stack = row'.map (Tree.value b) ∧
      rowPostorder row' = rowPostorder row ++ [.call f power] := by
  obtain ⟨parts, hparts, h⟩ := Except.bind_eq_ok_iff.1 h
  obtain ⟨hcount, rfl⟩ := operands_eq_ok_iff.1 hparts
  rw [List.length_map] at hcount
  -- The row has the last tree first, a call its first argument.
  let arguments := (row.take f.arity).reverse
  have hlength : arguments.length = f.arity := by simp [arguments, hcount]
  have hvalues : ((row.map (Tree.value b)).take f.arity).reverse = arguments.map (Tree.value b) := by
    rw [List.map_reverse, List.map_take]
  have happly := Elementary.apply_eq_ok ((List.length_map (Tree.value b)).trans hlength)
  simp only [hvalues, happly, Except.ok_bind, Except.pure_eq_ok_iff] at h
  subst h
  have hsaturated : ∀ i, (arguments.get i).Saturated := fun i =>
    (hrow _ (List.mem_of_mem_take (List.mem_reverse.1 (List.get_mem arguments i)))).saturated
  have hbound : ∀ i, (arguments.get i).BoundIn b := fun i =>
    (hrow _ (List.mem_of_mem_take (List.mem_reverse.1 (List.get_mem arguments i)))).bound
  refine ⟨.call f power arguments.length arguments.get :: row.drop f.arity, ?_, ?_, ?_⟩
  · exact List.forall_mem_cons.2 ⟨⟨⟨hlength, hsaturated⟩, Tree.boundIn_call.2 hbound⟩,
      fun tree htree => hrow tree (List.mem_of_mem_drop htree)⟩
  · rw [List.map_cons, Tree.value_call, List.ofFn_get, List.map_drop]
  · have hsplit := rowPostorder_append (row.take f.arity) (row.drop f.arity)
    rw [List.take_append_drop] at hsplit
    rw [rowPostorder_cons, Tree.postorder_call, List.ofFn_get, hsplit, List.append_assoc]
    rfl

/-- A token that acts on the values of a row of trees leaves such values again. -/
theorem act_row {b : Bindings} {row : List Tree} {t : Token} {stack : List Float}
    (hrow : ∀ tree ∈ row, Defined b tree) (h : act b (row.map (Tree.value b)) t = .ok stack) :
    ∃ row', (∀ tree ∈ row', Defined b tree) ∧ stack = row'.map (Tree.value b) ∧
      rowPostorder row' = rowPostorder row ++ [t] := by
  cases t with
  | number v =>
    cases h
    exact ⟨.number v :: row, List.forall_mem_cons.2 ⟨⟨trivial, nofun⟩, hrow⟩, rfl,
      rowPostorder_cons _ _⟩
  | var name power =>
    obtain ⟨v, hnumber, hstack⟩ := Except.bind_eq_ok_iff.1 h
    obtain ⟨hbinds, rfl⟩ := Bindings.number_eq_ok_iff.1 hnumber
    cases hstack
    have hbound : (Tree.var name power).BoundIn b := List.forall_mem_singleton.2 hbinds
    refine ⟨.var name power :: row, List.forall_mem_cons.2 ⟨⟨trivial, hbound⟩, hrow⟩, ?_,
      rowPostorder_cons _ _⟩
    rw [List.map_cons, Tree.value_var]
  | call f power => exact act_call_row hrow h
  | symbol s =>
    -- An operator takes the two top trees, the upper of which stood to the right.
    match row with
    | [] => cases h
    | [_] => cases h
    | right :: left :: rest =>
      cases s with
      | operator o =>
        cases h
        simp only [List.forall_mem_cons] at hrow
        obtain ⟨hright, hleft, hrest⟩ := hrow
        refine ⟨.binary o left right :: rest, List.forall_mem_cons.2 ⟨⟨?_, ?_⟩, hrest⟩, ?_, ?_⟩
        · exact ⟨hleft.saturated, hright.saturated⟩
        · exact Tree.boundIn_binary.2 ⟨hleft.bound, hright.bound⟩
        · rw [List.map_cons, Tree.value_binary]
        · simp only [rowPostorder_cons, Tree.postorder, List.append_assoc]
      | leftParen => cases h
      | rightParen => cases h
      | comma => cases h

/-- At every time the stack holds the values of trees whose postorders are the tokens
so far. -/
theorem stackAfter_row {b : Bindings} {row : List Tree} {sequence : Postfix} {stack : List Float}
    (hrow : ∀ tree ∈ row, Defined b tree)
    (h : stackAfter b (row.map (Tree.value b)) sequence = .ok stack) :
    ∃ row', (∀ tree ∈ row', Defined b tree) ∧ stack = row'.map (Tree.value b) ∧
      rowPostorder row' = rowPostorder row ++ sequence := by
  induction sequence generalizing row with
  | nil =>
    cases h
    exact ⟨row, hrow, rfl, (List.append_nil _).symm⟩
  | cons t rest ih =>
    obtain ⟨between, hact, hrest⟩ := Except.bind_eq_ok_iff.1 h
    obtain ⟨row', hrow', rfl, hpostorder⟩ := act_row hrow hact
    obtain ⟨row'', hrow'', hstack, hpostorder'⟩ := ih hrow' hrest
    refine ⟨row'', hrow'', hstack, ?_⟩
    rw [hpostorder', hpostorder, List.append_assoc]
    rfl

/-- The tokens that evaluate are the postorders of trees, and have the trees' values. -/
theorem value_eq_ok_iff {sequence : Postfix} {b : Bindings} {v : Float} :
    sequence.value b = .ok v ↔ ∃ t : Tree, sequence = t.postorder ∧ Defined b t ∧ t.value b = v := by
  rw [value_eq_ok_iff_stackAfter]
  constructor
  · intro h
    obtain ⟨row, hrow, hstack, hpostorder⟩ := @stackAfter_row b [] _ _ (by simp) h
    obtain ⟨t, rfl, hvalue⟩ := List.map_eq_singleton_iff.1 hstack.symm
    refine ⟨t, ?_, hrow t (List.mem_singleton.2 rfl), hvalue⟩
    simpa [rowPostorder] using hpostorder.symm
  · rintro ⟨t, rfl, hdefined, rfl⟩
    exact stackAfter_postorder hdefined.saturated hdefined.bound []

end Postfix
end Reckoner
