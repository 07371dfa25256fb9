import Reckoner.Formula
import Reckoner.Proofs.Boundary
import Reckoner.Proofs.Distinct
import Reckoner.Proofs.Height
import Reckoner.Proofs.Nesting
import Reckoner.Proofs.Operands

/-! The variables of a formula, in the order in which it needs them.

An evaluation meets the variables of a formula as they are written (`names_ofTokens`),
and the first one that is not bound ends it, unless something else did before
(`firstUnbound?_of_height`). With all of them bound it ends as it does under any other
bindings that have them all (`height_rebind`). So the names that a formula is said to
need are those that its evaluation needs, the one first that is needed first:
`freeVariables_needed`. -/
namespace Reckoner

/-! ### The first variable that is not bound -/

namespace Bindings

/-- The first of the names that is not bound. -/
def firstUnbound? (b : Bindings) (names : List String) : Option String :=
  names.find? fun name => ¬ b.Binds name

theorem firstUnbound?_eq_none_iff {b : Bindings} {names : List String} :
    b.firstUnbound? names = none ↔ ∀ name ∈ names, b.Binds name := by
  simp [firstUnbound?]

theorem firstUnbound?_cons (b : Bindings) (name : String) (names : List String) :
    b.firstUnbound? (name :: names) =
      if b.Binds name then b.firstUnbound? names else some name := by
  by_cases hname : b.Binds name <;> simp [firstUnbound?, hname]

end Bindings

namespace Postfix
open Bindings (firstUnbound?_cons)

theorem grow_of_variable {t : Token} {name : String} (h : t.variableName? = some name)
    (b : Bindings) (count : Nat) :
    grow b count t =
      if b.Binds name then .ok (count + 1) else .error (.undefinedVariable name) := by
  cases t <;> cases h
  rfl

/-- What is no variable is counted alike under all bindings. -/
theorem grow_of_not_variable {t : Token} (h : t.variableName? = none) (b b' : Bindings)
    (count : Nat) : grow b count t = grow b' count t := by
  cases t with
  | var name power => cases h
  | _ => rfl

theorem variable_of_grow {b : Bindings} {count : Nat} {t : Token} {name : String}
    (h : grow b count t = .error (.undefinedVariable name)) :
    t.variableName? = some name ∧ ¬ b.Binds name := by
  cases t with
  | var other power =>
    by_cases hother : b.Binds other
    · simp [grow, hother] at h
    · simp only [grow, if_neg hother, Except.error.injEq, FormulaError.undefinedVariable.injEq] at h
      exact h ▸ ⟨rfl, hother⟩
  | _ => unfold grow at h; grind

/-- A variable is said not to be defined when it is the first one that is not bound. -/
theorem firstUnbound?_of_height {b : Bindings} {tokens : Postfix} {count : Nat} {name : String}
    (h : height b count tokens = .error (.undefinedVariable name)) :
    b.firstUnbound? (Token.names tokens) = some name := by
  induction tokens generalizing count with
  | nil => cases h
  | cons t rest ih =>
    rw [Token.names_cons]
    rcases Except.bind_eq_error_iff.1 h with hgrow | ⟨next, hgrow, hrest⟩
    · obtain ⟨hname, hunbound⟩ := variable_of_grow hgrow
      rw [hname, Option.toList_some, List.singleton_append, firstUnbound?_cons, if_neg hunbound]
    · cases hname : t.variableName? with
      | none => exact ih hrest
      | some other =>
        have hother : b.Binds other := by
          by_contra hunbound
          rw [grow_of_variable hname, if_neg hunbound] at hgrow
          cases hgrow
        rw [Option.toList_some, List.singleton_append, firstUnbound?_cons, if_pos hother, ih hrest]

/-- Tokens that can be counted under some bindings can be counted under all others that
have their variables, to the same number. -/
theorem height_rebind {b' : Bindings} {tokens : Postfix} {count last : Nat}
    (h : height b' count tokens = .ok last) (b : Bindings) :
    height b count tokens =
      match b.firstUnbound? (Token.names tokens) with
      | none => .ok last
      | some name => .error (.undefinedVariable name) := by
  induction tokens generalizing count with
  | nil => exact h
  | cons t rest ih =>
    rw [Token.names_cons]
    cases hname : t.variableName? with
    | none =>
      simp only [height, grow_of_not_variable hname b' b] at h ⊢
      cases hgrow : grow b count t with
      | error e =>
        rw [hgrow] at h
        cases h
      | ok next =>
        rw [hgrow] at h
        exact ih h
    | some other =>
      simp only [height, grow_of_variable hname] at h ⊢
      rw [Option.toList_some, List.singleton_append, firstUnbound?_cons]
      split at h
      · by_cases hother : b.Binds other
        · rw [if_pos hother, if_pos hother]
          exact ih h
        · rw [if_neg hother, if_neg hother]
          rfl
      · cases h

theorem firstUnbound?_of_value {sequence : Postfix} {b : Bindings} {name : String}
    (h : sequence.value b = .error (.undefinedVariable name)) :
    b.firstUnbound? (Token.names sequence) = some name := by
  rcases value_eq_error_iff.1 h with h | ⟨count, -, -, he⟩
  · exact firstUnbound?_of_height h
  · cases he

/-- Tokens that have a value under some bindings have one under all that bind their
variables. -/
theorem value_isOk_of_bound {sequence : Postfix} {b b' : Bindings}
    (h : ∃ v, sequence.value b' = .ok v) (hbound : b.firstUnbound? (Token.names sequence) = none) :
    ∃ v, sequence.value b = .ok v := by
  have hheight := height_rebind (value_isOk_iff.1 h) b
  rw [hbound] at hheight
  exact value_isOk_iff.2 hheight

theorem value_of_unbound {sequence : Postfix} {b b' : Bindings} {name : String}
    (h : ∃ v, sequence.value b' = .ok v)
    (hunbound : b.firstUnbound? (Token.names sequence) = some name) :
    sequence.value b = .error (.undefinedVariable name) := by
  have hheight := height_rebind (value_isOk_iff.1 h) b
  rw [hunbound] at hheight
  exact value_eq_error_iff.2 (.inl hheight)

end Postfix

/-! ### The names of a text -/

/-- A name that is read as a variable's is no function's. -/
theorem Lexeme.ofName?_of_token {l : Lexeme} {name : String}
    (h : l.token.variableName? = some name) : Elementary.ofName? name = none := by
  cases l with
  | number run => cases h
  | symbol s => cases h
  | word other power =>
    simp only [token, Token.ofName] at h
    cases hother : Elementary.ofName? other with
    | some f => simp [hother, Token.variableName?] at h
    | none =>
      simp only [hother, Token.variableName?, Option.some.injEq] at h
      exact h ▸ hother

theorem Token.ofName?_of_mem_names {pieces : List Piece} {name : String}
    (h : name ∈ names (ofPieces pieces)) : Elementary.ofName? name = none := by
  induction pieces with
  | nil => cases h
  | cons piece rest ih =>
    cases piece with
    | blank c => exact ih h
    | lexeme l =>
      have hstar : names (ofPieces (.lexeme l :: rest)) =
          l.token.variableName?.toList ++ names (ofPieces rest) := by
        rw [ofPieces, Lexeme.tokens, List.cons_append, names_cons]
        split <;> rfl
      rw [hstar, List.mem_append, Option.mem_toList] at h
      rcases h with h | h
      · exact Lexeme.ofName?_of_token h
      · exact ih h

namespace Formula

theorem freeVariables_eq_error_iff {text : String} {e : FormulaError} :
    freeVariables text = .error e ↔ Token.ofText text = .error e := by
  simp [freeVariables]

theorem freeVariables_eq_ok_iff {text : String} {names : List String} :
    freeVariables text = .ok names ↔
      ∃ tokens, Token.ofText text = .ok tokens ∧ (Token.names tokens).eraseDups = names := by
  simp [freeVariables, Token.names]

theorem evaluate_of_ofText {text : String} {tokens : List Token}
    (h : Token.ofText text = .ok tokens) (b : Bindings) :
    evaluate text b = Postfix.ofTokens tokens >>= (·.value b) := by
  simp only [evaluate, compile, h, Except.ok_bind]

theorem firstUnbound?_of_evaluate {text : String} {tokens : List Token} {b : Bindings}
    {name : String} (htokens : Token.ofText text = .ok tokens)
    (h : evaluate text b = .error (.undefinedVariable name)) :
    b.firstUnbound? (Token.names tokens) = some name := by
  rw [evaluate_of_ofText htokens] at h
  cases hsequence : Postfix.ofTokens tokens with
  | error e =>
    rw [hsequence] at h
    cases h
    rcases Postfix.ofTokens_eq_error hsequence with he | he <;> cases he
  | ok sequence =>
    rw [hsequence] at h
    rw [← Postfix.names_ofTokens hsequence]
    exact Postfix.firstUnbound?_of_value h

/-- A text that has a value under some bindings is evaluated from one sequence of tokens,
which has its variables. -/
theorem exists_sequence {text : String} {tokens : List Token}
    (htokens : Token.ofText text = .ok tokens) (h : ∃ b v, evaluate text b = .ok v) :
    ∃ sequence : Postfix, (∃ b v, sequence.value b = .ok v) ∧
      Token.names sequence = Token.names tokens ∧ ∀ b, evaluate text b = sequence.value b := by
  obtain ⟨b, v, hv⟩ := h
  have heval := evaluate_of_ofText htokens
  cases hsequence : Postfix.ofTokens tokens with
  | error e =>
    rw [heval, hsequence] at hv
    cases hv
  | ok sequence =>
    rw [hsequence] at heval
    exact ⟨sequence, ⟨b, v, (heval b).symm.trans hv⟩, Postfix.names_ofTokens hsequence, heval⟩

/-- **A formula is said to need exactly the variables that its evaluation needs, in
their order.** It fails to be read for its names exactly as it fails to be read; its
names are distinct and none is a function's. A variable that an evaluation misses is
the first of them that is not bound. If the formula has a value under some bindings, it
has one under exactly those that bind all its names, and under all others the first
name that is not bound is missed. -/
theorem freeVariables_needed (text : String) :
    (∀ e, freeVariables text = .error e ↔ Token.ofText text = .error e) ∧
    ∀ names, freeVariables text = .ok names →
      names.Nodup ∧ (∀ name ∈ names, Elementary.ofName? name = none) ∧
      ∀ b : Bindings,
        (∀ name, evaluate text b = .error (.undefinedVariable name) →
          b.firstUnbound? names = some name) ∧
        ((∃ b' v, evaluate text b' = .ok v) →
          ((∃ v, evaluate text b = .ok v) ↔ ∀ name ∈ names, b.Binds name) ∧
          ∀ name, b.firstUnbound? names = some name →
            evaluate text b = .error (.undefinedVariable name)) := by
  refine ⟨fun e => freeVariables_eq_error_iff, fun names hnames => ?_⟩
  obtain ⟨tokens, htokens, rfl⟩ := freeVariables_eq_ok_iff.1 hnames
  have hfirst : ∀ b : Bindings, b.firstUnbound? (Token.names tokens).eraseDups =
      b.firstUnbound? (Token.names tokens) := fun b => find?_eraseDups _ _
  refine ⟨nodup_eraseDups _, fun name hname => ?_, fun b => ⟨fun name hmissed => ?_, fun h => ?_⟩⟩
  · obtain ⟨pieces, -, rfl⟩ := Token.ofText_eq_ok_iff.1 htokens
    exact Token.ofName?_of_mem_names (List.mem_eraseDups.1 hname)
  · rw [hfirst]
    exact firstUnbound?_of_evaluate htokens hmissed
  · obtain ⟨sequence, ⟨b', hvalue⟩, hsame, heval⟩ := exists_sequence htokens h
    rw [← Bindings.firstUnbound?_eq_none_iff, hfirst, ← hsame, heval]
    refine ⟨⟨fun hdefined => ?_, Postfix.value_isOk_of_bound hvalue⟩, fun name hname =>
      Postfix.value_of_unbound hvalue hname⟩
    -- An unbound name would have been missed.
    cases hname : b.firstUnbound? (Token.names sequence) with
    | none => rfl
    | some name =>
      obtain ⟨v, hv⟩ := hdefined
      rw [Postfix.value_of_unbound hvalue hname] at hv
      cases hv

/-- `b * a + a` is 8 under some bindings, and misses `a` where only `b` is bound. -/
theorem freeVariables_needed_sum :
    freeVariables "b * a + a" = .ok ["b", "a"] ∧
      evaluate "b * a + a" (.ofList [("a", "2"), ("b", "3")]) = .ok 8 ∧
      evaluate "b * a + a" (.ofList [("b", "3")]) = .error (.undefinedVariable "a") := by
  have hnames : freeVariables "b * a + a" = .ok ["b", "a"] := by decide +kernel
  have hvalue : evaluate "b * a + a" (.ofList [("a", "2"), ("b", "3")]) = .ok 8 := by
    decide +kernel
  obtain ⟨-, -, hneeded⟩ := (freeVariables_needed "b * a + a").2 _ hnames
  have hunbound := ((hneeded (.ofList [("b", "3")])).2 ⟨_, _, hvalue⟩).2 "a" (by decide +kernel)
  exact ⟨hnames, hvalue, hunbound⟩

end Formula
end Reckoner
