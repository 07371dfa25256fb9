/-! A store of the most recent things.

The store keeps a value for each of the keys used last, at most `capacity` of
them, the most recent first. Putting a key puts it first, whether it was there or
not, and drops the key used longest ago when there is no room (`keys_put`). -/
namespace Reckoner

structure Recent (κ α : Type) where
  capacity : Nat
  /-- The most recent entry comes first. -/
  entries : List (κ × α)
  capacity_pos : 0 < capacity
  length_le : entries.length ≤ capacity
  nodup : (entries.map Prod.fst).Nodup

namespace Recent
variable {κ α : Type}

/-- An empty store with room for one entry at least. -/
def empty (capacity : Nat) : Recent κ α where
  capacity := max capacity 1
  entries := []
  capacity_pos := by omega
  length_le := Nat.zero_le _
  nodup := .nil

def keys (r : Recent κ α) : List κ := r.entries.map Prod.fst

def size (r : Recent κ α) : Nat := r.entries.length

def clear (r : Recent κ α) : Recent κ α :=
  { r with entries := [], length_le := Nat.zero_le _, nodup := .nil }

variable [DecidableEq κ]

def get? (r : Recent κ α) (key : κ) : Option α := r.entries.lookup key

theorem nodup_put (entries : List (κ × α)) (key : κ) (value : α) (capacity : Nat)
    (h : (entries.map Prod.fst).Nodup) :
    ((((key, value) :: entries.filter (·.1 ≠ key)).take capacity).map Prod.fst).Nodup := by
  rw [List.map_take]
  refine List.Nodup.sublist (List.take_sublist _ _) ?_
  rw [List.map_cons, List.nodup_cons]
  constructor
  · simp
  · exact List.Nodup.sublist (List.filter_sublist.map _) h

/-- The key with its value comes first; the last entry goes if there is no room. -/
def put (r : Recent κ α) (key : κ) (value : α) : Recent κ α where
  capacity := r.capacity
  entries := ((key, value) :: r.entries.filter (·.1 ≠ key)).take r.capacity
  capacity_pos := r.capacity_pos
  length_le := List.length_take_le _ _
  nodup := nodup_put r.entries key value r.capacity r.nodup

theorem mem_of_get? {r : Recent κ α} {key : κ} {value : α} (h : r.get? key = some value) :
    (key, value) ∈ r.entries := by
  obtain ⟨before, after, hentries, -⟩ := List.lookup_eq_some_iff.1 h
  rw [hentries]
  exact List.mem_append_right _ (List.mem_cons_self ..)

theorem get?_isSome_iff {r : Recent κ α} {key : κ} : (r.get? key).isSome ↔ key ∈ r.keys := by
  simp [get?, keys]

/-- An entry was put just now or had been in the store. -/
theorem mem_put {r : Recent κ α} {key : κ} {value : α} {entry : κ × α}
    (h : entry ∈ (r.put key value).entries) : entry = (key, value) ∨ entry ∈ r.entries := by
  rcases List.mem_cons.1 (List.mem_of_mem_take h) with h | h
  · exact .inl h
  · exact .inr (List.mem_filter.1 h).1

theorem keys_put (r : Recent κ α) (key : κ) (value : α) :
    (r.put key value).keys = (key :: r.keys.filter (· ≠ key)).take r.capacity := by
  simp only [keys, put, List.map_take, List.map_cons, List.filter_map]
  rfl

theorem capacity_put (r : Recent κ α) (key : κ) (value : α) :
    (r.put key value).capacity = r.capacity := rfl

end Recent
end Reckoner
