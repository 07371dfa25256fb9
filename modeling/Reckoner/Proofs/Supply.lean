import Reckoner.Proofs.Height
import Reckoner.Proofs.Tally

/-! Operands in supply.

A token in postfix order takes some values and leaves one, so the number of values before
it is a matter of addition: `supply` is the tally of them. A token is out of place where
there are not as many values as it takes, where its variable is not bound, or where it is
a symbol that computes nothing. The first token out of place is what an evaluation fails
with, and one value should be left if there is none (`value_classified`). No number has a
say in it, and a function that is called never complains about its arguments. -/
namespace Reckoner

namespace Token

/-- The number of values a token takes. Whatever a symbol computes, it takes two. -/
def demand : Token → Nat
  | number _ | var _ _ => 0
  | call f _ => f.arity
  | symbol _ => 2

/-- The token may not stand after so many values. -/
inductive Unsupplied (b : Bindings) : Int → Token → FormulaError → Prop where
  | unbound {count : Int} {name : String} {power : Option Float} : ¬ b.Binds name →
    Unsupplied b count (var name power) (.undefinedVariable name)
  | call {count : Nat} {f : Elementary} {power : Option Float} : count < f.arity →
    Unsupplied b count (call f power) (.operandCount f.name f.arity count)
  | symbol {count : Nat} {s : Symbol} : count < 2 →
    Unsupplied b count (symbol s) (.operandCount s.text 2 count)
  | grouping {count : Int} {s : Symbol} : 2 ≤ count → (∀ o, s ≠ .operator o) →
    Unsupplied b count (symbol s) (.notAnOperator s.text)

/-- The values there are. -/
def supply (b : Bindings) : Tally Token FormulaError := ⟨fun t => 1 - t.demand, Unsupplied b⟩

/-- A token without its numbers: which one it is and what it is called. -/
def shape : Token → Token
  | number _ => number 0
  | var name _ => var name none
  | call f _ => call f none
  | symbol s => symbol s

end Token

namespace Postfix
open Token (supply shape)

/-! ### Counting -/

theorem unsupplied_of_grow {b : Bindings} {count : Nat} {t : Token} {e : FormulaError}
    (h : grow b count t = .error e) : Token.Unsupplied b count t e := by
  cases t with
  | number v => cases h
  | var name power =>
    by_cases hbound : b.Binds name
    · simp [grow, hbound] at h
    · simp only [grow, if_neg hbound] at h
      cases h
      exact .unbound hbound
  | call f power =>
    by_cases hcount : count < f.arity
    · simp only [grow, if_pos hcount] at h
      cases h
      exact .call hcount
    · simp [grow, hcount] at h
  | symbol s =>
    by_cases hcount : count < 2
    · simp only [grow, if_pos hcount] at h
      cases h
      exact .symbol hcount
    · simp only [grow, if_neg hcount] at h
      cases s with
      | operator o => cases h
      | _ =>
        cases h
        refine .grouping (by omega) fun o ho => ?_
        cases ho

theorem grow_of_unsupplied {b : Bindings} {count : Nat} {t : Token} {e : FormulaError}
    (h : Token.Unsupplied b count t e) : grow b count t = .error e := by
  -- The number of a tally is an integer; that it is this count is kept as an equation.
  generalize hnumber : (count : Int) = number at h
  cases h with
  | unbound hbound => simp only [grow, if_neg hbound]
  | @call found f power hfound =>
    obtain rfl : count = found := by omega
    simp only [grow, if_pos hfound]
  | @symbol found s hfound =>
    obtain rfl : count = found := by omega
    simp only [grow, if_pos hfound]
  | grouping hnumber hs =>
    have hcount : ¬ count < 2 := by omega
    simp only [grow, if_neg hcount]

theorem grow_eq_ok {b : Bindings} {count next : Nat} {t : Token}
    (h : grow b count t = .ok next) : (next : Int) = count + (1 - t.demand) := by
  cases t with
  | number v =>
    cases h
    simp [Token.demand]
  | var name power =>
    by_cases hbound : b.Binds name
    · simp only [grow, if_pos hbound] at h
      cases h
      simp [Token.demand]
    · simp [grow, hbound] at h
  | call f power =>
    by_cases hcount : count < f.arity
    · simp [grow, hcount] at h
    · simp only [grow, if_neg hcount, Except.ok.injEq] at h
      simp only [Token.demand]
      omega
  | symbol s =>
    by_cases hcount : count < 2
    · simp [grow, hcount] at h
    · simp only [grow, if_neg hcount] at h
      cases s with
      | operator o =>
        simp only [Except.ok.injEq] at h
        simp only [Token.demand]
        omega
      | _ => cases h

theorem counts_grow (b : Bindings) : (supply b).Counts (grow b) where
  error_iff _ _ _ := ⟨unsupplied_of_grow, grow_of_unsupplied⟩
  weight _ _ _ := grow_eq_ok

theorem height_eq_foldlM (b : Bindings) (count : Nat) (tokens : Postfix) :
    height b count tokens = tokens.foldlM (grow b) count := by
  induction tokens generalizing count with
  | nil => rfl
  | cons t rest ih => simp only [height, List.foldlM_cons, ih]

theorem height_eq_error_iff {b : Bindings} {tokens : Postfix} {e : FormulaError} :
    height b 0 tokens = .error e ↔ (supply b).FirstOffence tokens e := by
  rw [height_eq_foldlM, (counts_grow b).foldlM_eq_error_iff]

theorem height_eq_ok_iff {b : Bindings} {tokens : Postfix} {count : Nat} :
    height b 0 tokens = .ok count ↔
      (supply b).Clean tokens ∧ (count : Int) = (supply b).total tokens := by
  rw [height_eq_foldlM, (counts_grow b).foldlM_eq_ok_iff]

/-! ### What has no say in it -/

/-- A token is counted by its shape alone. -/
theorem grow_shape (b : Bindings) (count : Nat) (t : Token) :
    grow b count t.shape = grow b count t := by
  cases t <;> rfl

theorem height_shape (b : Bindings) (count : Nat) (tokens : Postfix) :
    height b count (tokens.map shape) = height b count tokens := by
  induction tokens generalizing count with
  | nil => rfl
  | cons t rest ih => simp only [List.map_cons, height, grow_shape, ih]

theorem height_congr {b b' : Bindings} (h : ∀ name, b'.Binds name ↔ b.Binds name) (count : Nat)
    (tokens : Postfix) : height b' count tokens = height b count tokens := by
  have hgrow : grow b' = grow b := by
    funext count t
    cases t <;> simp only [grow, h]
  induction tokens generalizing count with
  | nil => rfl
  | cons t rest ih => simp only [height, hgrow, ih]

/-- What a function gets are as many arguments as it takes. -/
theorem apply_operands {f : Elementary} {stack arguments below : List Float}
    (h : operands f.name f.arity stack = .ok (arguments, below)) :
    ∃ v, f.apply arguments = .ok v := by
  obtain ⟨hcount, hparts⟩ := operands_eq_ok_iff.1 h
  cases hparts
  rw [Elementary.apply_isOk_iff, List.length_reverse, List.length_take_of_le hcount]

/-- **How an evaluation ends is a matter of counting.** It fails with the first token that
is out of place, or with the values that are left at the end if these are not one; in
every other case it succeeds. Tokens of the same shapes fail alike under all bindings of
the same names, whatever the numbers are. A function that is called always has a value. -/
theorem value_classified (tokens : Postfix) (b : Bindings) :
    (∀ e, tokens.value b = .error e ↔
      (supply b).FirstOffence tokens e ∨
        ∃ count : Nat, (supply b).Clean tokens ∧ (count : Int) = (supply b).total tokens ∧
          count ≠ 1 ∧ e = .leftoverValues count) ∧
    ((∃ v, tokens.value b = .ok v) ↔
      (supply b).Clean tokens ∧ (supply b).total tokens = 1) ∧
    (∀ (tokens' : Postfix) (b' : Bindings), tokens'.map shape = tokens.map shape →
      (∀ name, b'.Binds name ↔ b.Binds name) →
      ∀ e, tokens'.value b' = .error e ↔ tokens.value b = .error e) ∧
    ∀ (f : Elementary) (stack arguments below : List Float),
      operands f.name f.arity stack = .ok (arguments, below) → ∃ v, f.apply arguments = .ok v := by
  refine ⟨fun e => ?_, ?_, fun tokens' b' hshape hbinds e => ?_, fun _ _ _ _ => apply_operands⟩
  · simp only [value_eq_error_iff, height_eq_error_iff, height_eq_ok_iff, and_assoc]
  · rw [value_isOk_iff, height_eq_ok_iff]
    exact and_congr_right fun _ => eq_comm
  · rw [value_eq_error_iff, value_eq_error_iff, ← height_shape b' 0 tokens', hshape, height_shape,
      height_congr hbinds]

/-- A logarithm lacks its base, whatever `x` is and whatever power it carries; where there is
one it has a value. -/
theorem value_classified_log :
    value [.var "x" none, .call .log none] (.ofList [("x", "8")]) =
      .error (.operandCount "log" 2 1) ∧
    value [.var "x" (some 3), .call .log (some 2)] (.ofList [("x", "none")]) =
      .error (.operandCount "log" 2 1) ∧
    ∃ v, Elementary.log.apply [8, 2] = .ok v := by
  obtain ⟨-, -, hsame, hcall⟩ :=
    value_classified [.var "x" none, .call .log none] (.ofList [("x", "8")])
  have hvalue : value [.var "x" none, .call .log none] (.ofList [("x", "8")]) =
      .error (.operandCount "log" 2 1) := by decide +kernel
  have hbinds : ∀ name, (Bindings.ofList [("x", "none")]).Binds name ↔
      (Bindings.ofList [("x", "8")]).Binds name := by
    intro name
    by_cases hname : name = "x" <;> simp [Bindings.ofList, Bindings.Binds, Bindings.get?_bind, hname]
  exact ⟨hvalue, (hsame _ _ rfl hbinds _).2 hvalue, hcall .log [2, 8] [8, 2] [] rfl⟩

end Postfix
end Reckoner
