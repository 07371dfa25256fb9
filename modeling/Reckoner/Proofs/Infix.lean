import Reckoner.Proofs.Nesting
import Reckoner.Proofs.Tree

/-! The grammar of formulas.

`Infix` says which tokens write a tree in infix form. Sums are made of products,
products of powers and powers of operands; sums and products group to the left,
powers to the right. An operand is a number, a variable, a formula in parentheses,
a call, or a function with a single operand right after it, which then binds
tighter than every operator. `exists_tokens`: every tree can be written. -/
namespace Reckoner

/-- What a phrase may be without parentheses around it. -/
inductive Grade where
  | sum
  | product
  | power
  | operand

/-- The tokens are a phrase of the grade that writes the tree. -/
inductive Infix : Grade → List Token → Tree → Prop where
  | number (v : Float) : Infix .operand [.number v] (.number v)
  | var (name : String) (power : Option Float) :
    Infix .operand [.var name power] (.var name power)
  | parens {tokens : List Token} {t : Tree} :
    Infix .sum tokens t → Infix .operand (Token.group [tokens]) t
  | call (f : Elementary) (power : Option Float) {count : Nat} {segments : Fin count → List Token}
    {arguments : Fin count → Tree} :
    (∀ i, Infix .sum (segments i) (arguments i)) →
    Infix .operand (.call f power :: Token.group (List.ofFn segments)) (.call f power count arguments)
  | apply (f : Elementary) (power : Option Float) {tokens : List Token} {t : Tree} :
    Infix .operand tokens t → Infix .operand (.call f power :: tokens) (.call f power 1 fun _ => t)
  | power {as bs : List Token} {left right : Tree} :
    Infix .operand as left → Infix .power bs right →
    Infix .power (as ++ .operator .power :: bs) (.binary .power left right)
  | product {o : Operator} (ho : o = .multiply ∨ o = .divide) {as bs : List Token}
    {left right : Tree} :
    Infix .product as left → Infix .power bs right →
    Infix .product (as ++ .operator o :: bs) (.binary o left right)
  | sum {o : Operator} (ho : o = .add ∨ o = .subtract) {as bs : List Token} {left right : Tree} :
    Infix .sum as left → Infix .product bs right →
    Infix .sum (as ++ .operator o :: bs) (.binary o left right)
  | ofOperand {tokens : List Token} {t : Tree} : Infix .operand tokens t → Infix .power tokens t
  | ofPower {tokens : List Token} {t : Tree} : Infix .power tokens t → Infix .product tokens t
  | ofProduct {tokens : List Token} {t : Tree} : Infix .product tokens t → Infix .sum tokens t

namespace Infix

/-- An operand is a phrase of every grade. -/
theorem lift {tokens : List Token} {t : Tree} (h : Infix .operand tokens t) :
    ∀ grade, Infix grade tokens t
  | .operand => h
  | .power => h.ofOperand
  | .product => h.ofOperand.ofPower
  | .sum => h.ofOperand.ofPower.ofProduct

/-- Operands on both sides of an operator make a sum. -/
theorem binary (o : Operator) {as bs : List Token} {left right : Tree}
    (ha : Infix .operand as left) (hb : Infix .operand bs right) :
    Infix .sum (as ++ .operator o :: bs) (.binary o left right) := by
  cases o with
  | add => exact sum (.inl rfl) (ha.lift _) (hb.lift _)
  | subtract => exact sum (.inr rfl) (ha.lift _) (hb.lift _)
  | multiply => exact (product (.inl rfl) (ha.lift _) (hb.lift _)).ofProduct
  | divide => exact (product (.inr rfl) (ha.lift _) (hb.lift _)).ofProduct
  | power => exact (power ha (hb.lift _)).ofPower.ofProduct

/-- A phrase ends with a token that is no operator. -/
theorem getLast?_ne_operator {grade : Grade} {tokens : List Token} {t : Tree}
    (h : Infix grade tokens t) :
    ∃ last, tokens.getLast? = some last ∧ ∀ o, last ≠ .operator o := by
  induction h with
  | number v => exact ⟨_, rfl, fun _ => nofun⟩
  | var name power => exact ⟨_, rfl, fun _ => nofun⟩
  | parens _ _ => exact ⟨_, Token.getLast?_group _, fun _ => nofun⟩
  | call f power _ _ =>
    refine ⟨.symbol .rightParen, ?_, fun _ => nofun⟩
    rw [List.getLast?_cons, Token.getLast?_group]
    rfl
  | apply f power _ ih =>
    obtain ⟨last, hlast, hne⟩ := ih
    exact ⟨last, by simp [List.getLast?_cons, hlast], hne⟩
  | power _ _ _ ih | product _ _ _ _ ih | sum _ _ _ _ ih =>
    obtain ⟨last, hlast, hne⟩ := ih
    exact ⟨last, by simp [List.getLast?_append, List.getLast?_cons, hlast], hne⟩
  | ofOperand _ ih | ofPower _ ih | ofProduct _ ih => exact ih

/-- What stands after the number that a phrase begins with is an operator. -/
theorem operator_after_number {grade : Grade} {v : Float} {tokens rest : List Token} {t : Tree}
    (h : Infix grade tokens t) (htokens : tokens = .number v :: rest) :
    ∀ next ∈ rest.head?, ∃ o, next = .operator o := by
  induction h generalizing rest with
  | number v =>
    cases htokens
    nofun
  | var _ _ | parens _ _ | call _ _ _ _ | apply _ _ _ _ => cases htokens
  | power _ _ ih _ | product _ _ _ ih _ | sum _ _ _ ih _ =>
    obtain ⟨-, hcons⟩ | ⟨left, rfl, rfl⟩ := List.append_eq_cons_iff.1 htokens
    · cases hcons
    · cases left with
      | nil => exact fun next hnext => ⟨_, (Option.some.inj hnext).symm⟩
      | cons second left => exact @ih (second :: left) rfl
  | ofOperand _ ih | ofPower _ ih | ofProduct _ ih => exact ih htokens

end Infix

/-- Every tree can be written, with parentheses around everything. -/
theorem Tree.exists_tokens (t : Tree) : ∃ tokens, Infix .operand tokens t := by
  induction t with
  | number v => exact ⟨_, .number v⟩
  | var name power => exact ⟨_, .var name power⟩
  | binary o left right ihl ihr =>
    obtain ⟨as, ha⟩ := ihl
    obtain ⟨bs, hb⟩ := ihr
    exact ⟨_, (Infix.binary o ha hb).parens⟩
  | call f power count arguments ih =>
    choose segments hsegments using ih
    exact ⟨_, .call f power fun i => (hsegments i).lift .sum⟩

end Reckoner
