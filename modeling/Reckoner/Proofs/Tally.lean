import Mathlib.Data.List.Induction
import Reckoner.Result

/-! Numbers kept along a list.

A tally begins at zero, and every entry of a list adds its weight to it. An entry may
also be out of place at the number that stands before it: it offends then. What goes
from number to number and fails where an entry offends fails with the first entry that
does, and comes to the total of the weights if none does: `Counts.foldlM_eq_error_iff`
and `Counts.foldlM_eq_ok_iff`. -/
namespace Reckoner

/-- A number kept along a list, and what is wrong with entries at certain numbers. -/
structure Tally (α ε : Type) where
  /-- What an entry adds to the number. -/
  weight : α → Int
  /-- The entry is out of place where the number is what it is, for this reason. -/
  Offence : Int → α → ε → Prop

namespace Tally
variable {α ε : Type}

/-- The number after a list. -/
def total (t : Tally α ε) : List α → Int
  | [] => 0
  | a :: rest => t.weight a + t.total rest

/-- No entry is out of place. -/
def Clean (t : Tally α ε) (l : List α) : Prop :=
  ∀ before a, before ++ [a] <+: l → ∀ e, ¬ t.Offence (t.total before) a e

/-- The first entry that is out of place is so for this reason. -/
def FirstOffence (t : Tally α ε) (l : List α) (e : ε) : Prop :=
  ∃ before a, before ++ [a] <+: l ∧ t.Clean before ∧ t.Offence (t.total before) a e

variable {t : Tally α ε}

/-! ### One more entry -/

theorem concat_prefix_concat {before l : List α} {a b : α} :
    before ++ [a] <+: l ++ [b] ↔ (before = l ∧ a = b) ∨ before ++ [a] <+: l := by
  rw [List.prefix_concat_iff, ← List.concat_eq_append, ← List.concat_eq_append, List.concat_inj]

theorem total_concat (l : List α) (a : α) : t.total (l ++ [a]) = t.total l + t.weight a := by
  induction l with
  | nil => simp [total]
  | cons b l ih =>
    simp only [List.cons_append, total, ih]
    omega

/-- The order of the entries does not matter for the total. -/
theorem total_perm {l l' : List α} (h : l.Perm l') : t.total l = t.total l' := by
  induction h with
  | nil => rfl
  | cons a _ ih => simp only [total, ih]
  | swap a b l =>
    simp only [total]
    omega
  | trans _ _ ih ih' => exact ih.trans ih'

theorem clean_nil : t.Clean [] := by
  intro before a hbefore
  simp at hbefore

theorem clean_concat {l : List α} {a : α} :
    t.Clean (l ++ [a]) ↔ t.Clean l ∧ ∀ e, ¬ t.Offence (t.total l) a e := by
  constructor
  · intro h
    exact ⟨fun before b hbefore => h before b (concat_prefix_concat.2 (.inr hbefore)),
      h l a List.prefix_rfl⟩
  · rintro ⟨hclean, ha⟩ before b hbefore
    rcases concat_prefix_concat.1 hbefore with ⟨rfl, rfl⟩ | hbefore
    · exact ha
    · exact hclean before b hbefore

theorem firstOffence_concat {l : List α} {a : α} {e : ε} :
    t.FirstOffence (l ++ [a]) e ↔
      t.FirstOffence l e ∨ t.Clean l ∧ t.Offence (t.total l) a e := by
  constructor
  · rintro ⟨before, b, hbefore, hclean, hoffence⟩
    rcases concat_prefix_concat.1 hbefore with ⟨rfl, rfl⟩ | hbefore
    · exact .inr ⟨hclean, hoffence⟩
    · exact .inl ⟨before, b, hbefore, hclean, hoffence⟩
  · rintro (⟨before, b, hbefore, hclean, hoffence⟩ | ⟨hclean, hoffence⟩)
    · exact ⟨before, b, concat_prefix_concat.2 (.inr hbefore), hclean, hoffence⟩
    · exact ⟨l, a, List.prefix_rfl, hclean, hoffence⟩

theorem Clean.not_firstOffence {l : List α} (h : t.Clean l) (e : ε) : ¬ t.FirstOffence l e := by
  rintro ⟨before, a, hbefore, -, hoffence⟩
  exact h before a hbefore e hoffence

theorem FirstOffence.exists_mem {l : List α} {e : ε} (h : t.FirstOffence l e) :
    ∃ a ∈ l, ∃ number, t.Offence number a e := by
  obtain ⟨before, a, hbefore, -, hoffence⟩ := h
  exact ⟨a, hbefore.subset (List.mem_append_right _ List.mem_cons_self), _, hoffence⟩

/-! ### Counting -/

/-- The step adds the weights, and fails exactly where an entry is out of place. -/
structure Counts (t : Tally α ε) (step : Nat → α → Except ε Nat) : Prop where
  error_iff : ∀ n a e, step n a = .error e ↔ t.Offence n a e
  weight : ∀ n a m, step n a = .ok m → (m : Int) = n + t.weight a

namespace Counts
variable {step : Nat → α → Except ε Nat}

theorem step_eq_ok_iff (h : t.Counts step) {n m : Nat} {a : α} :
    step n a = .ok m ↔ (∀ e, ¬ t.Offence n a e) ∧ (m : Int) = n + t.weight a := by
  cases hstep : step n a with
  | error e =>
    have hoffence := (h.error_iff n a e).1 hstep
    simp only [reduceCtorEq, false_iff]
    exact fun hnone => hnone.1 e hoffence
  | ok m' =>
    have hweight := h.weight n a m' hstep
    have hnone : ∀ e, ¬ t.Offence n a e := by
      intro e hoffence
      rw [(h.error_iff n a e).2 hoffence] at hstep
      cases hstep
    simp only [Except.ok.injEq]
    constructor
    · rintro rfl
      exact ⟨hnone, hweight⟩
    · rintro ⟨-, hm⟩
      omega

/-- How counting a list ends. Of the two ends either one needs the other's case when
one more entry comes in, so they are proved together. -/
theorem foldlM_iff (h : t.Counts step) (l : List α) :
    (∀ e, l.foldlM step 0 = .error e ↔ t.FirstOffence l e) ∧
      ∀ n, l.foldlM step 0 = .ok n ↔ t.Clean l ∧ (n : Int) = t.total l := by
  induction l using List.reverseRecOn with
  | nil =>
    have hnone := fun e => clean_nil.not_firstOffence (t := t) e
    simp [hnone, clean_nil, total, @eq_comm Nat]
  | append_singleton l a ih =>
    have hfold : (l ++ [a]).foldlM step 0 = l.foldlM step 0 >>= (step · a) := by
      rw [List.foldlM_append]
      simp
    obtain ⟨herror, hok⟩ := ih
    simp only [hfold, firstOffence_concat, clean_concat, total_concat, ← herror]
    cases hl : l.foldlM step 0 with
    | error e =>
      have hdirty : ¬ t.Clean l := fun hclean => hclean.not_firstOffence e ((herror e).1 hl)
      simp [hdirty]
    | ok n =>
      obtain ⟨hclean, htotal⟩ := (hok n).1 hl
      simp [hclean, ← htotal, h.error_iff, h.step_eq_ok_iff]

theorem foldlM_eq_error_iff (h : t.Counts step) {l : List α} {e : ε} :
    l.foldlM step 0 = .error e ↔ t.FirstOffence l e :=
  (h.foldlM_iff l).1 e

theorem foldlM_eq_ok_iff (h : t.Counts step) {l : List α} {n : Nat} :
    l.foldlM step 0 = .ok n ↔ t.Clean l ∧ (n : Int) = t.total l :=
  (h.foldlM_iff l).2 n

end Counts
end Tally
end Reckoner
