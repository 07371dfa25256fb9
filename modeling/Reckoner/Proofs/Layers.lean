import Mathlib.Data.List.Chain
import Reckoner.Proofs.Operands

/-! What waits on the stack, and in what order.

An operator makes give way what is applied before it, and waits on top of the rest. So it
stands on an operator that binds less strongly, or as a power on a power, or on an open
parenthesis; never on a function, which gives way to every operator. A token leaves a stack
like that whatever came before it (`Transition.settled`), and so do all tokens of a run
(`run_settled`).

Seen from the bottom, what waits from one open parenthesis to the next is thus a layer of
operators that bind ever more strongly, with functions on top (`settled_iff_layers`). That is
all there is to say of a stack, for all stacks of this kind come up: the tokens of its own
entries, read from the bottom, build it (`run_entries`). `run_iff_layered` says both. -/
namespace Reckoner

namespace Operator

/-- One operator may wait right below another: it binds less strongly, or both are powers. -/
def WaitsBelow (lower upper : Operator) : Prop :=
  lower.precedence < upper.precedence ∨ lower = power ∧ upper = power

instance (lower upper : Operator) : Decidable (lower.WaitsBelow upper) :=
  inferInstanceAs (Decidable (_ ∨ _))

theorem yieldsTo_eq_false_iff {lower upper : Operator} :
    upper.yieldsTo lower = false ↔ lower.WaitsBelow upper := by
  cases lower <;> cases upper <;> decide

end Operator

namespace Token

/-- What may wait from one open parenthesis to the next, the lowest first: operators, each
right below a stronger one or a power below a power, and functions on top of them. -/
def IsLayer (layer : List Token) : Prop :=
  ∃ (operators : List Operator) (calls : List Token),
    layer = operators.map Token.operator ++ calls ∧ operators.IsChain Operator.WaitsBelow ∧
      ∀ t ∈ calls, ∃ f power, t = .call f power

/-- What may wait on a stack, the top first: no operand, comma or closing parenthesis, and
layers between the open parentheses. -/
structure Layered (stack : List Token) : Prop where
  waiting : ∀ t ∈ stack, t.isOperand = false ∧ t ≠ .symbol .comma ∧ t ≠ .symbol .rightParen
  layers : ∀ layer ∈ stack.splitOn (.symbol .leftParen), IsLayer layer.reverse

theorem isLayer_nil : IsLayer [] := ⟨[], [], rfl, .nil, nofun⟩

/-- On top of a layer is a function, or an operator that waits on operators only. -/
theorem isLayer_concat_iff {layer : List Token} {t : Token} :
    IsLayer (layer ++ [t]) ↔ (IsLayer layer ∧ ∃ f power, t = .call f power) ∨
      ∃ operators o, layer = operators.map Token.operator ∧ t = .operator o ∧
        (operators ++ [o]).IsChain Operator.WaitsBelow := by
  constructor
  · rintro ⟨operators, calls, hlayer, hchain, hcalls⟩
    rcases calls.eq_nil_or_concat with rfl | ⟨calls, last, rfl⟩
    · -- Without functions the last token is the last of the operators.
      rcases operators.eq_nil_or_concat with rfl | ⟨operators, last, rfl⟩
      · simp at hlayer
      · rw [List.append_nil, List.concat_eq_append, List.map_append] at hlayer
        obtain ⟨hlower, hlast⟩ := List.append_inj' hlayer rfl
        rw [List.concat_eq_append] at hchain
        exact .inr ⟨operators, last, hlower, List.head_eq_of_cons_eq hlast, hchain⟩
    · rw [List.concat_eq_append, ← List.append_assoc] at hlayer
      obtain ⟨hlower, hlast⟩ := List.append_inj' hlayer rfl
      cases hlast
      rw [List.concat_eq_append, List.forall_mem_append, List.forall_mem_singleton] at hcalls
      exact .inl ⟨⟨operators, calls, hlower, hchain, hcalls.1⟩, hcalls.2⟩
  · rintro (⟨⟨operators, calls, rfl, hchain, hcalls⟩, hcall⟩ | ⟨operators, o, rfl, rfl, hchain⟩)
    · exact ⟨operators, calls ++ [t], List.append_assoc .., hchain,
        List.forall_mem_append.2 ⟨hcalls, List.forall_mem_singleton.2 hcall⟩⟩
    · exact ⟨operators ++ [o], [], by simp, hchain, nofun⟩

/-- A function may wait on any layer. -/
theorem isLayer_concat_call {layer : List Token} {f : Elementary} {power : Option Float} :
    IsLayer (layer ++ [.call f power]) ↔ IsLayer layer := by
  simp [isLayer_concat_iff]

/-- An operator may wait on a layer whose top is a weaker operator, or a power for a power. -/
theorem isLayer_concat_operator {layer : List Token} {o : Operator} :
    IsLayer (layer ++ [.operator o]) ↔
      IsLayer layer ∧ ∀ t ∈ layer.getLast?, ∃ lower, t = .operator lower ∧ lower.WaitsBelow o := by
  rw [isLayer_concat_iff]
  constructor
  · rintro (⟨-, f, power, hcall⟩ | ⟨operators, _, rfl, ⟨⟩, hchain⟩)
    · cases hcall
    · obtain ⟨hlower, -, hbelow⟩ := List.isChain_append.1 hchain
      refine ⟨⟨operators, [], (List.append_nil _).symm, hlower, nofun⟩, fun t ht => ?_⟩
      rw [List.getLast?_map] at ht
      obtain ⟨lower, hlast, rfl⟩ := Option.map_eq_some_iff.1 ht
      exact ⟨lower, rfl, hbelow lower hlast o rfl⟩
  · rintro ⟨⟨operators, calls, rfl, hchain, hcalls⟩, hlast⟩
    rcases calls.eq_nil_or_concat with rfl | ⟨calls, last, rfl⟩
    · refine .inr ⟨operators, o, List.append_nil _, rfl, hchain.append (.singleton o) ?_⟩
      rintro lower hlower _ ⟨⟩
      obtain ⟨_, hsame, hbelow⟩ := hlast (.operator lower) (by simpa using hlower)
      cases hsame
      exact hbelow
    · -- A function on top is no operator.
      obtain ⟨lower, rfl, -⟩ := hlast last (by simp)
      obtain ⟨f, power, hcall⟩ := hcalls (.operator lower) (by simp)
      cases hcall

end Token

namespace Pending

/-- An entry rests on one that does not give way to it. Only operators are given way to. -/
def RestsOn (upper lower : Pending) : Prop :=
  ∀ o, upper = operator o → givesWay o lower = false

/-- Each entry of a stack rests on the one below it. The top comes first. -/
def Settled (stack : List Pending) : Prop := stack.IsChain RestsOn

theorem restsOn_call (f : Elementary) (power : Option Float) (lower : Pending) :
    RestsOn (call f power) lower := nofun

theorem restsOn_leftParen (lower : Pending) : RestsOn leftParen lower := nofun

theorem restsOn_operator {o : Operator} {lower : Pending} :
    RestsOn (operator o) lower ↔ givesWay o lower = false := by
  simp [RestsOn]

theorem release_suffix (stack : List Pending) : (release stack).2 <:+ stack := by
  cases stack with
  | nil => exact List.suffix_rfl
  | cons entry below =>
    cases entry with
    | call f power => exact List.suffix_cons ..
    | _ => exact List.suffix_rfl

end Pending

namespace Postfix
open Pending (RestsOn Settled givesWay release)
open Token (IsLayer Layered)

/-- A token leaves a settled stack settled. -/
theorem Transition.settled {stack after : List Pending} {t : Token} {written : Postfix}
    (h : Transition stack t written after) (hstack : Settled stack) : Settled after := by
  cases h with
  | number => exact hstack
  | var => exact hstack
  | call => exact hstack.cons fun lower _ => Pending.restsOn_call _ _ lower
  | leftParen => exact hstack.cons fun lower _ => Pending.restsOn_leftParen lower
  | operator _ hbelow =>
    exact hstack.right_of_append.cons fun lower hlower =>
      Pending.restsOn_operator.2 (hbelow lower hlower)
  | comma _ => exact hstack.right_of_append
  | rightParen _ => exact hstack.right_of_append.tail.suffix (Pending.release_suffix _)

theorem run_settled {stack after : List Pending} {tokens : List Token} {written : Postfix}
    (h : run stack tokens = .ok (written, after)) (hstack : Settled stack) : Settled after := by
  induction tokens generalizing stack written with
  | nil =>
    cases h
    exact hstack
  | cons t rest ih =>
    obtain ⟨first, between, second, hstep, hrest, -⟩ := run_cons_eq_ok_iff.1 h
    exact ih hrest ((transition_of_step hstep).settled hstack)

/-! ### Stacks from their entries -/

/-- An entry that rests on a stack is put onto it by its own token, which writes nothing. -/
theorem step_entry {entry : Pending} {stack : List Pending}
    (h : ∀ lower ∈ stack.head?, RestsOn entry lower) :
    step stack entry.token = .ok ([], entry :: stack) := by
  cases entry with
  | operator o =>
    have hstays : ∀ lower ∈ stack.head?, givesWay o lower = false :=
      fun lower hlower => Pending.restsOn_operator.1 (h lower hlower)
    exact step_of_transition (@Transition.operator [] stack o nofun hstays)
  | call f power => rfl
  | leftParen => rfl

/-- A stack is built by the tokens of its own entries, read from the bottom. -/
theorem run_entries {stack : List Pending} (h : Settled stack) :
    run [] (stack.map Pending.token).reverse = .ok ([], stack) := by
  induction stack with
  | nil => rfl
  | cons entry below ih =>
    obtain ⟨hentry, hbelow⟩ := List.isChain_cons.1 h
    rw [List.map_cons, List.reverse_cons]
    exact run_append_of_ok (ih hbelow) ((run_singleton ..).trans (step_entry hentry))

/-! ### Layers -/

theorem exists_layers (stack : List Pending) : ∃ top layers,
    (stack.map Pending.token).splitOn (.symbol .leftParen) = top :: layers :=
  List.exists_cons_of_ne_nil (List.splitOn_ne_nil _ _)

/-- An entry that is no open parenthesis belongs to the topmost layer, and the others stay as
they are. -/
theorem splitOn_cons (entry : Pending) (hentry : entry ≠ .leftParen) {stack : List Pending}
    {top : List Token} {layers : List (List Token)}
    (hstack : (stack.map Pending.token).splitOn (.symbol .leftParen) = top :: layers) :
    ((entry :: stack).map Pending.token).splitOn (.symbol .leftParen) =
      (entry.token :: top) :: layers := by
  rw [List.map_cons, List.splitOn_cons_eq_if_modifyHead, hstack]
  cases entry with
  | leftParen => exact absurd rfl hentry
  | _ => rfl

/-- An operator may wait on the topmost layer exactly if it may wait on the top entry. -/
theorem restsOn_operator_iff {stack : List Pending} {top : List Token}
    {layers : List (List Token)}
    (hstack : (stack.map Pending.token).splitOn (.symbol .leftParen) = top :: layers)
    (o : Operator) :
    (∀ lower ∈ stack.head?, RestsOn (.operator o) lower) ↔
      ∀ t ∈ top.head?, ∃ lower, t = .operator lower ∧ lower.WaitsBelow o := by
  cases stack with
  | nil =>
    cases hstack
    simp
  | cons entry stack =>
    obtain ⟨rest, below, hrest⟩ := exists_layers stack
    cases entry with
    | leftParen =>
      cases hstack
      simp [Pending.restsOn_operator]
    | call f power =>
      cases (splitOn_cons (.call f power) (by simp) hrest).symm.trans hstack
      simp [Pending.restsOn_operator, Pending.token]
    | operator lower =>
      cases (splitOn_cons (.operator lower) (by simp) hrest).symm.trans hstack
      simp [Pending.restsOn_operator, Pending.token, Operator.yieldsTo_eq_false_iff]

/-- A stack is settled if operators and functions stand in layers between its parentheses. -/
theorem settled_iff_layers (stack : List Pending) :
    Settled stack ↔
      ∀ layer ∈ (stack.map Pending.token).splitOn (.symbol .leftParen), IsLayer layer.reverse := by
  induction stack with
  | nil => exact iff_of_true .nil (List.forall_mem_singleton.2 Token.isLayer_nil)
  | cons entry stack ih =>
    obtain ⟨top, layers, hstack⟩ := exists_layers stack
    rw [Settled, List.isChain_cons, ← Settled, ih]
    cases entry with
    | leftParen =>
      have hrests : ∀ lower ∈ stack.head?, RestsOn .leftParen lower :=
        fun lower _ => Pending.restsOn_leftParen lower
      have hsplit : ((.leftParen :: stack).map Pending.token).splitOn (.symbol .leftParen) =
          [] :: (stack.map Pending.token).splitOn (.symbol .leftParen) := rfl
      rw [and_iff_right hrests, hsplit, List.forall_mem_cons, List.reverse_nil,
        and_iff_right Token.isLayer_nil]
    | call f power =>
      have hrests : ∀ lower ∈ stack.head?, RestsOn (.call f power) lower :=
        fun lower _ => Pending.restsOn_call f power lower
      rw [and_iff_right hrests, splitOn_cons (.call f power) (by simp) hstack, hstack,
        List.forall_mem_cons, List.forall_mem_cons, List.reverse_cons, Pending.token,
        Token.isLayer_concat_call]
    | operator o =>
      rw [restsOn_operator_iff hstack, splitOn_cons (.operator o) (by simp) hstack, hstack,
        List.forall_mem_cons, List.forall_mem_cons, List.reverse_cons, Pending.token,
        Token.isLayer_concat_operator, List.getLast?_reverse, and_assoc]
      exact and_left_comm

/-- **The stacks that come up are the layered ones.** Whatever tokens have been read, be they
the beginning of a formula or not, no operand, comma or closing parenthesis waits on the stack;
and from one open parenthesis to the next there wait, seen from the bottom, operators of rising
precedence, of which only powers may follow their like, and then functions. Every stack of this
kind is what some tokens leave. -/
theorem run_iff_layered (stack : List Pending) :
    (∃ tokens written, run [] tokens = .ok (written, stack)) ↔
      Layered (stack.map Pending.token) := by
  constructor
  · rintro ⟨tokens, written, hrun⟩
    refine ⟨fun t ht => ?_, (settled_iff_layers stack).1 (run_settled hrun .nil)⟩
    obtain ⟨entry, -, rfl⟩ := List.mem_map.1 ht
    refine ⟨entry.not_isOperand_token, ?_, ?_⟩ <;> cases entry <;> nofun
  · rintro ⟨-, hlayers⟩
    exact ⟨_, [], run_entries ((settled_iff_layers stack).2 hlayers)⟩

/-- After `x * y + sin (x ^ x ^`, of which `x * y` has been written. -/
example :
    run [] [.var "x" none, .operator .multiply, .var "y" none, .operator .add, .call .sin none,
        .symbol .leftParen, .var "x" none, .operator .power, .var "x" none, .operator .power] =
      .ok ([.var "x" none, .var "y" none, .operator .multiply, .var "x" none, .var "x" none],
        [.operator .power, .operator .power, .leftParen, .call .sin none, .operator .add]) := rfl

end Postfix
end Reckoner
