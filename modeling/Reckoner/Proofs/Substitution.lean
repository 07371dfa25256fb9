import Reckoner.Proofs.Operands
import Reckoner.Proofs.Tree

/-! Variables and the numbers in their place.

A variable may be replaced by the number that its text holds before a formula is put
into postfix order or after it, or be looked up when it is met: `value_substitute`.
The conversion looks into no operand, so it treats tokens alike whose operands differ
(`ofTokens_relabel`); and the evaluation goes on from the same stack at every token
(`act_substitute`), also where it fails. So one sequence serves all bindings, and of
these only the numbers of its own variables count (`value_congr`). -/
namespace Reckoner

namespace Token

/-- The number in place of a variable, to the power that the variable carries. -/
def substitute (b : Bindings) : Token → Token
  | var name none => number (b.valueOf name)
  | var name (some power) => number ((b.valueOf name).pow power)
  | t => t

theorem substitute_var (b : Bindings) (name : String) (power : Option Float) :
    substitute b (var name power) = number (raise (b.valueOf name) power) := by
  cases power <;> rfl

/-- The function changes nothing but operands, and these into operands. -/
structure Relabels (f : Token → Token) : Prop where
  operand : ∀ t : Token, t.isOperand → (f t).isOperand
  other : ∀ t : Token, t.isOperand = false → f t = t

theorem relabels_substitute (b : Bindings) : Relabels (substitute b) where
  operand t ht := by
    cases t with
    | number v => rfl
    | var name power =>
      rw [substitute_var]
      rfl
    | call f power => cases ht
    | symbol s => cases ht
  other t ht := by
    cases t with
    | number v => cases ht
    | var name power => cases ht
    | call f power => rfl
    | symbol s => rfl

theorem Relabels.map_entries {f : Token → Token} (hf : Relabels f) (entries : List Pending) :
    (entries.map Pending.token).map f = entries.map Pending.token := by
  rw [List.map_map]
  exact List.map_congr_left fun entry _ => hf.other _ entry.not_isOperand_token

end Token

namespace Postfix
open Token (Relabels substitute)

/-! ### Conversion -/

theorem step_operand {t : Token} (ht : t.isOperand) (stack : List Pending) :
    step stack t = .ok ([t], stack) := by
  cases t with
  | number v => rfl
  | var name power => rfl
  | call f power => cases ht
  | symbol s => cases ht

variable {f : Token → Token}

theorem step_relabel (hf : Relabels f) (stack : List Pending) (t : Token) :
    step stack (f t) = (step stack t).map fun next => (next.1.map f, next.2) := by
  by_cases ht : t.isOperand
  · rw [step_operand ht, step_operand (hf.operand t ht)]
    rfl
  · rw [hf.other t (by simpa using ht)]
    cases hstep : step stack t with
    | error e => rfl
    | ok next =>
      obtain ⟨written, after⟩ := next
      obtain ⟨entries, rfl⟩ := (transition_of_step hstep).writes
      have hnone : [t].filter Token.isOperand = [] := by simpa using ht
      simp only [Except.map, hnone, List.nil_append, hf.map_entries]

theorem run_relabel (hf : Relabels f) (stack : List Pending) (tokens : List Token) :
    run stack (tokens.map f) =
      (run stack tokens).map fun result => (result.1.map f, result.2) := by
  induction tokens generalizing stack with
  | nil => rfl
  | cons t rest ih =>
    simp only [List.map_cons, run, step_relabel hf, ih]
    cases step stack t with
    | error e => rfl
    | ok next => cases hrest : run next.2 rest <;> simp [Except.map, hrest]

/-- Tokens whose operands differ are put into the same order, or not for the same
reason. -/
theorem ofTokens_relabel (hf : Relabels f) (tokens : List Token) :
    ofTokens (tokens.map f) = (ofTokens tokens).map (List.map f) := by
  simp only [ofTokens, run_relabel hf, finish]
  cases run [] tokens with
  | error e => rfl
  | ok result =>
    cases hunwind : Pending.unwind result.2 <;> simp [Except.map, hunwind, hf.map_entries]

/-! ### Evaluation -/

theorem act_substitute {b : Bindings} {t : Token} (h : ∀ name ∈ t.variableName?, b.Binds name)
    (b' : Bindings) (stack : List Float) : act b' stack (t.substitute b) = act b stack t := by
  cases t with
  | var name power =>
    have hnumber := Bindings.number_eq_ok_iff.2 ⟨h name rfl, rfl⟩
    simp only [Token.substitute_var, act, hnumber]
    rfl
  | _ => rfl

theorem stackAfter_substitute {b : Bindings} {tokens : Postfix}
    (h : ∀ name ∈ Token.names tokens, b.Binds name) (b' : Bindings) (stack : List Float) :
    stackAfter b' stack (tokens.map (substitute b)) = stackAfter b stack tokens := by
  induction tokens generalizing stack with
  | nil => rfl
  | cons t rest ih =>
    rw [Token.names_cons, List.forall_mem_append] at h
    have hact := act_substitute (fun name hname => h.1 name (Option.mem_toList.2 hname)) b' stack
    simp only [List.map_cons, stackAfter, hact, ih h.2]

/-- Of the bindings only the numbers of the tokens' own variables count. -/
theorem stackAfter_congr {b b' : Bindings} {tokens : Postfix}
    (h : ∀ name ∈ Token.names tokens, b'.number name = b.number name) (stack : List Float) :
    stackAfter b' stack tokens = stackAfter b stack tokens := by
  induction tokens generalizing stack with
  | nil => rfl
  | cons t rest ih =>
    rw [Token.names_cons, List.forall_mem_append] at h
    have hact : act b' stack t = act b stack t := by
      cases t with
      | var name power => simp only [act, h.1 name (by simp [Token.variableName?])]
      | _ => rfl
    simp only [stackAfter, hact, ih h.2]

theorem value_congr {b b' : Bindings} {tokens : Postfix}
    (h : ∀ name ∈ Token.names tokens, b'.number name = b.number name) :
    tokens.value b' = tokens.value b := by
  rw [value, value, stackAfter_congr h]

/-- **Variables may be looked up when they are met or replaced beforehand.** Where all
of them are bound, the tokens with numbers in their place are put into postfix order
or refused for the same reason as the tokens are, and what they come to under no
bindings at all is what the tokens come to, be it a value or an error. Other bindings
that give the variables the same numbers come to the same. -/
theorem value_substitute {tokens : List Token} {b : Bindings}
    (h : ∀ name ∈ Token.names tokens, b.Binds name) :
    (∀ e, ofTokens (tokens.map (substitute b)) = .error e ↔ ofTokens tokens = .error e) ∧
    ∀ sequence, ofTokens tokens = .ok sequence →
      (∃ replaced, ofTokens (tokens.map (substitute b)) = .ok replaced ∧
        replaced.value .empty = sequence.value b) ∧
      ∀ b' : Bindings, (∀ name ∈ Token.names tokens, b'.number name = b.number name) →
        sequence.value b' = sequence.value b := by
  rw [ofTokens_relabel (Token.relabels_substitute b)]
  refine ⟨fun e => ?_, fun sequence hsequence => ?_⟩
  · cases ofTokens tokens <;> simp [Except.map]
  · rw [← names_ofTokens hsequence] at h ⊢
    refine ⟨⟨sequence.map (substitute b), by rw [hsequence]; rfl, ?_⟩, fun b' hb' => value_congr hb'⟩
    rw [value, value, stackAfter_substitute h]

/-- `x^2 + y` at 3 and 2.5. -/
theorem value_substitute_sum :
    (∀ name ∈ Token.names [.var "x" (some 2), .operator .add, .var "y" none],
      (Bindings.ofList [("x", "3"), ("y", "2.5")]).Binds name) ∧
    ofTokens [.var "x" (some 2), .operator .add, .var "y" none] =
      .ok [.var "x" (some 2), .var "y" none, .operator .add] ∧
    value [.var "x" (some 2), .var "y" none, .operator .add] (.ofList [("x", "3"), ("y", "2.5")]) =
      value [.number ((3 : Float).pow 2), .number 2.5, .operator .add] .empty ∧
    value [.number ((3 : Float).pow 2), .number 2.5, .operator .add] .empty =
      .ok ((3 : Float).pow 2 + 2.5) := by
  have hbound : ∀ name ∈ Token.names [.var "x" (some 2), .operator .add, .var "y" none],
      (Bindings.ofList [("x", "3"), ("y", "2.5")]).Binds name := by decide
  have hsequence : ofTokens [.var "x" (some 2), .operator .add, .var "y" none] =
      .ok [.var "x" (some 2), .var "y" none, .operator .add] := rfl
  obtain ⟨⟨replaced, hreplaced, hvalue⟩, -⟩ := (value_substitute hbound).2 _ hsequence
  refine ⟨hbound, hsequence, ?_, rfl⟩
  rw [← hvalue]
  cases hreplaced
  have hx : (Bindings.ofList [("x", "3"), ("y", "2.5")]).valueOf "x" = 3 := by decide +kernel
  have hy : (Bindings.ofList [("x", "3"), ("y", "2.5")]).valueOf "y" = 2.5 := by decide +kernel
  rw [← hx, ← hy]
  rfl

end Postfix
end Reckoner
