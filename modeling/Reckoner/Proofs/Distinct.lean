import Mathlib.Data.List.Induction
import Mathlib.Data.List.Nodup

/-! Lists with every entry once.

`List.eraseDups` keeps the first of equal entries. Looking for an entry and leaving
entries out are the same before and after it (`find?_eraseDups`, `filter_eraseDups`). -/
namespace Reckoner

variable {α : Type} [DecidableEq α]

theorem eraseDups_concat (l : List α) (a : α) :
    (l ++ [a]).eraseDups = if a ∈ l then l.eraseDups else l.eraseDups ++ [a] := by
  rw [List.eraseDups_append]
  by_cases ha : a ∈ l <;> simp [List.removeAll, List.eraseDups_cons, ha]

theorem nodup_eraseDups (l : List α) : l.eraseDups.Nodup := by
  induction l using List.reverseRecOn with
  | nil => simp
  | append_singleton l a ih =>
    rw [eraseDups_concat]
    by_cases ha : a ∈ l
    · rwa [if_pos ha]
    · rw [if_neg ha, ← List.concat_eq_append]
      exact ih.concat (by simpa using ha)

/-- The first entry with a property is the first of the distinct ones. -/
theorem find?_eraseDups (p : α → Bool) (l : List α) : l.eraseDups.find? p = l.find? p := by
  induction l using List.reverseRecOn with
  | nil => simp
  | append_singleton l a ih =>
    rw [eraseDups_concat, List.find?_append]
    by_cases ha : a ∈ l
    · rw [if_pos ha, ih]
      -- What the second `a` could be found for, the first one is found for before.
      cases hfound : l.find? p with
      | some first => rfl
      | none =>
        have hp : ¬ p a := List.find?_eq_none.1 hfound a ha
        simp [hp]
    · rw [if_neg ha, List.find?_append, ih]

theorem filter_eraseDups (p : α → Bool) (l : List α) :
    (l.filter p).eraseDups = l.eraseDups.filter p := by
  induction l using List.reverseRecOn with
  | nil => simp
  | append_singleton l a ih =>
    rw [eraseDups_concat, List.filter_append]
    by_cases hp : p a
    · rw [List.filter_singleton, hp, cond_true, eraseDups_concat]
      by_cases ha : a ∈ l <;> simp [ha, hp, ih]
    · by_cases ha : a ∈ l <;> simp [ha, hp, ih]

/-- The distinct entries after one more: it comes first, wherever it was. -/
theorem eraseDups_cons_filter (a : α) (l : List α) :
    (a :: l).eraseDups = a :: l.eraseDups.filter (· ≠ a) := by
  have hne : (fun b => !b == a) = fun b : α => decide (b ≠ a) := by
    funext b
    by_cases hb : b = a <;> simp [hb]
  rw [List.eraseDups_cons, hne, filter_eraseDups]

/-- Of the first entries of a list without duplicates, one more and the others that are
not that one: none beyond the first ones comes in. -/
theorem take_cons_filter_take {l : List α} (hl : l.Nodup) (a : α) (n : Nat) :
    (a :: (l.take n).filter (· ≠ a)).take n = (a :: l.filter (· ≠ a)).take n := by
  cases n with
  | zero => rfl
  | succ n =>
    rw [List.take_succ_cons, List.take_succ_cons, List.cons_inj_right]
    by_cases hlong : n + 1 ≤ l.length
    · have hnodup : (l.take (n + 1)).Nodup := hl.sublist (List.take_sublist _ _)
      have herase : (l.take (n + 1)).erase a = (l.take (n + 1)).filter (· ≠ a) := by
        rw [hnodup.erase_eq_filter]
        exact List.filter_congr fun b _ => Bool.eq_iff_iff.2 (by simp)
      have hlength : n ≤ ((l.take (n + 1)).filter (· ≠ a)).length := by
        have hle := List.le_length_erase (a := a) (l := l.take (n + 1))
        rw [herase, List.length_take_of_le hlong] at hle
        omega
      obtain ⟨rest, hrest⟩ := (List.take_prefix (n + 1) l).filter (· ≠ a)
      rw [← hrest, List.take_append_of_le_length hlength]
    · have hshort : l.take (n + 1) = l := List.take_of_length_le (by omega)
      rw [hshort]

end Reckoner
