import Mathlib.Data.Fin.VecNotation
import Reckoner.Proofs.Infix

/-! Conversion of infix formulas.

`ofTokens_eq_postorder`: the tokens of an infix formula are put into exactly the postorder
of the tree they write. A phrase leaves what still waits in it on the stack, and
`Converts` says what that can be: operators of the phrase's own grade or tighter
ones, and functions, all of which give way to the looser operator that comes after
the phrase. An operand may also find functions on the stack that wait for it
(`ConvertsUnder`); they are written with it or stay on top. -/
namespace Reckoner

namespace Grade

/-- The operators that a phrase of the grade may have outside of all parentheses. -/
def admits : Grade → Operator → Bool
  | sum, _ => true
  | product, .add | product, .subtract => false
  | product, _ => true
  | power, .power => true
  | power, _ => false
  | operand, _ => false

/-- What a phrase of the grade may leave waiting. -/
def leaves (grade : Grade) : Pending → Bool
  | .operator o => grade.admits o
  | .call _ _ => true
  | .leftParen => false

/-- The stack is one that a phrase of the grade begins on: no operator of the
phrase makes its top give way, and it is no function. -/
def Begins (grade : Grade) (stack : List Pending) : Prop :=
  ∀ entry ∈ stack.head?, operand.leaves entry = false ∧
    ∀ o, grade.admits o → entry.givesWay o = false

theorem leaves_mono {tight loose : Grade} (hle : ∀ o, tight.admits o → loose.admits o)
    {entry : Pending} (h : tight.leaves entry) : loose.leaves entry := by
  cases entry with
  | operator o => exact hle o h
  | call f power => rfl
  | leftParen => cases h

theorem Begins.mono {tight loose : Grade} (hle : ∀ o, tight.admits o → loose.admits o)
    {stack : List Pending} (h : loose.Begins stack) : tight.Begins stack :=
  fun entry hentry => ⟨(h entry hentry).1, fun o ho => (h entry hentry).2 o (hle o ho)⟩

theorem Begins.operator {grade : Grade} {o : Operator} (below : List Pending)
    (h : ∀ o', grade.admits o' → o'.yieldsTo o = false) : Begins grade (.operator o :: below) := by
  rintro entry ⟨⟩
  exact ⟨rfl, h⟩

end Grade

namespace Postfix
open Pending (unwind release givesWay)

/-- Run on a stack that a phrase of the grade begins on, the tokens write the
sequence, up to what they leave waiting. -/
def Converts (grade : Grade) (tokens : List Token) (sequence : Postfix) : Prop :=
  ∀ below, grade.Begins below → ∃ written inner, (∀ entry ∈ inner, grade.leaves entry) ∧
    run below tokens = .ok (written, inner ++ below) ∧
    written ++ inner.map Pending.token = sequence

/-- Run under functions that wait for them, the tokens write the sequence and the
functions after it, up to what they leave waiting. -/
def ConvertsUnder (tokens : List Token) (sequence : Postfix) : Prop :=
  ∀ calls below, (∀ entry ∈ calls, Grade.operand.leaves entry) → Grade.operand.Begins below →
    ∃ written inner, (∀ entry ∈ inner, Grade.operand.leaves entry) ∧
      run (calls ++ below) tokens = .ok (written, inner ++ below) ∧
      written ++ inner.map Pending.token = sequence ++ calls.map Pending.token

theorem ConvertsUnder.converts {tokens : List Token} {sequence : Postfix}
    (h : ConvertsUnder tokens sequence) : Converts .operand tokens sequence := by
  intro below hbelow
  simpa using h [] below (by simp) hbelow

theorem Converts.mono {tight loose : Grade} {tokens : List Token} {sequence : Postfix}
    (h : Converts tight tokens sequence) (hle : ∀ o, tight.admits o → loose.admits o) :
    Converts loose tokens sequence := by
  intro below hbelow
  obtain ⟨written, inner, hinner, hrun, hsequence⟩ := h below (hbelow.mono hle)
  exact ⟨written, inner, fun entry hentry => Grade.leaves_mono hle (hinner entry hentry), hrun,
    hsequence⟩

theorem Converts.ofTokens {tokens : List Token} {sequence : Postfix}
    (h : Converts .sum tokens sequence) : ofTokens tokens = .ok sequence := by
  obtain ⟨written, inner, hinner, hrun, rfl⟩ := h [] nofun
  rw [List.append_nil] at hrun
  have hclosed : .leftParen ∉ inner := fun hmem => absurd (hinner _ hmem) nofun
  exact ofTokens_eq_ok_iff.2 ⟨written, inner, hrun, hclosed, rfl⟩

/-! ### Operands -/

theorem release_calls {calls below : List Pending}
    (hcalls : ∀ entry ∈ calls, Grade.operand.leaves entry) (hbelow : Grade.operand.Begins below) :
    ∃ rest, (∀ entry ∈ rest, Grade.operand.leaves entry) ∧
      (release (calls ++ below)).2 = rest ++ below ∧
      (release (calls ++ below)).1 ++ rest.map Pending.token = calls.map Pending.token := by
  cases calls with
  | nil =>
    refine ⟨[], nofun, ?_⟩
    cases below with
    | nil => exact ⟨rfl, rfl⟩
    | cons entry below =>
      cases entry with
      | call f power => cases (hbelow _ rfl).1
      | _ => exact ⟨rfl, rfl⟩
  | cons entry calls =>
    cases entry with
    | call f power => exact ⟨calls, fun e he => hcalls e (List.mem_cons_of_mem _ he), rfl, rfl⟩
    | operator o => cases hcalls _ (List.mem_cons_self ..)
    | leftParen => cases hcalls _ (List.mem_cons_self ..)

theorem convertsUnder_group {segments : List (List Token)} {sequences : List Postfix}
    (h : List.Forall₂ (fun segment sequence => ofTokens segment = .ok sequence) segments sequences) :
    ConvertsUnder (Token.group segments) sequences.flatten := by
  intro calls below hcalls hbelow
  obtain ⟨rest, hrest, hstack, hwritten⟩ := release_calls hcalls hbelow
  refine ⟨_, rest, hrest, hstack ▸ run_group (calls ++ below) h, ?_⟩
  rw [List.append_assoc, hwritten]

theorem convertsUnder_call (f : Elementary) (power : Option Float) {segments : List (List Token)}
    {sequences : List Postfix}
    (h : List.Forall₂ (fun segment sequence => ofTokens segment = .ok sequence) segments sequences) :
    ConvertsUnder (.call f power :: Token.group segments) (sequences.flatten ++ [.call f power]) := by
  intro calls below hcalls hbelow
  refine ⟨_, calls, hcalls, run_cons_eq_ok_iff.2 ⟨[], _, _, rfl, run_group _ h, rfl⟩, rfl⟩

theorem ConvertsUnder.apply (f : Elementary) (power : Option Float) {tokens : List Token}
    {sequence : Postfix} (h : ConvertsUnder tokens sequence) :
    ConvertsUnder (.call f power :: tokens) (sequence ++ [.call f power]) := by
  intro calls below hcalls hbelow
  have hcalls' : ∀ entry ∈ Pending.call f power :: calls, Grade.operand.leaves entry :=
    List.forall_mem_cons.2 ⟨rfl, hcalls⟩
  obtain ⟨written, inner, hinner, hrun, hwritten⟩ := h (.call f power :: calls) below hcalls' hbelow
  refine ⟨written, inner, hinner, run_cons_eq_ok_iff.2 ⟨[], _, _, rfl, hrun, rfl⟩, ?_⟩
  rw [hwritten, List.append_assoc]
  rfl

/-! ### Operators -/

/-- An operator writes all that its left operand left waiting, and nothing below it. -/
theorem step_operator {grade : Grade} {o : Operator} {inner below : List Pending}
    (hinner : ∀ entry ∈ inner, entry.givesWay o) (hbelow : grade.Begins below)
    (ho : grade.admits o) :
    step (inner ++ below) (.operator o) =
      .ok (inner.map Pending.token, .operator o :: below) := by
  have hfirst : below.takeWhile (givesWay o) = [] ∧ below.dropWhile (givesWay o) = below := by
    cases below with
    | nil => exact ⟨rfl, rfl⟩
    | cons entry below => simp [(hbelow entry rfl).2 o ho]
  rw [step, List.takeWhile_append_of_pos hinner, List.dropWhile_append_of_pos hinner,
    hfirst.1, hfirst.2, List.append_nil]

/-- Two phrases and an operator between them: what the left one leaves waiting gives
way to the operator, and the operator to none of the right one's. -/
theorem Converts.binary {grade left right : Grade} {o : Operator} {as bs : List Token}
    {first second : Postfix} (ha : Converts left as first) (hb : Converts right bs second)
    (ho : grade.admits o) (hleft : ∀ o', left.admits o' → grade.admits o')
    (hright : ∀ o', right.admits o' → grade.admits o')
    (hwait : ∀ o', left.admits o' → o.yieldsTo o')
    (hhold : ∀ o', right.admits o' → o'.yieldsTo o = false) :
    Converts grade (as ++ .operator o :: bs) (first ++ second ++ [.operator o]) := by
  intro below hbelow
  obtain ⟨w, inner, hinner, hrun, rfl⟩ := ha below (hbelow.mono hleft)
  obtain ⟨w', inner', hinner', hrun', rfl⟩ := hb _ (Grade.Begins.operator below hhold)
  have hgives : ∀ entry ∈ inner, entry.givesWay o := by
    intro entry hentry
    have hleaves := hinner entry hentry
    cases entry with
    | operator o' => exact hwait o' hleaves
    | call f power => rfl
    | leftParen => cases hleaves
  have hoperator := step_operator hgives hbelow ho
  refine ⟨w ++ (inner.map Pending.token ++ w'), inner' ++ [.operator o], ?_, ?_, ?_⟩
  · rw [List.forall_mem_append]
    exact ⟨fun entry hentry => Grade.leaves_mono hright (hinner' entry hentry),
      List.forall_mem_singleton.2 ho⟩
  · rw [List.append_assoc inner']
    exact run_append_of_ok hrun (run_cons_eq_ok_iff.2 ⟨_, _, _, hoperator, hrun', rfl⟩)
  · simp [Pending.token, List.append_assoc]

/-! ### Formulas -/

theorem forall₂_ofFn {α β : Type} {R : α → β → Prop} {count : Nat} {f : Fin count → α}
    {g : Fin count → β} (h : ∀ i, R (f i) (g i)) : List.Forall₂ R (List.ofFn f) (List.ofFn g) := by
  rw [List.forall₂_iff_get]
  exact ⟨by simp, fun i _ _ => by simpa using h _⟩

/-- A phrase is converted on its own, and an operand also under functions. -/
theorem converts_phrase {grade : Grade} {tokens : List Token} {t : Tree}
    (h : Infix grade tokens t) :
    Converts grade tokens t.postorder ∧ (grade = .operand → ConvertsUnder tokens t.postorder) := by
  have hoperand : ∀ {tokens sequence}, ConvertsUnder tokens sequence →
      Converts .operand tokens sequence ∧
        (Grade.operand = .operand → ConvertsUnder tokens sequence) :=
    fun h => ⟨h.converts, fun _ => h⟩
  induction h with
  | number v => exact hoperand fun calls below hcalls _ => ⟨[.number v], calls, hcalls, rfl, rfl⟩
  | var name power =>
    exact hoperand fun calls below hcalls _ => ⟨[.var name power], calls, hcalls, rfl, rfl⟩
  | parens _ ih =>
    have hgroup := convertsUnder_group (.cons ih.1.ofTokens .nil)
    rw [List.flatten_singleton] at hgroup
    exact hoperand hgroup
  | call f power _ ih =>
    exact hoperand (convertsUnder_call f power (forall₂_ofFn fun i => (ih i).1.ofTokens))
  | apply f power _ ih =>
    rw [Tree.postorder_apply]
    exact hoperand ((ih.2 rfl).apply f power)
  | power _ _ iha ihb =>
    refine ⟨iha.1.binary ihb.1 rfl ?_ ?_ ?_ ?_, nofun⟩
    all_goals intro o; cases o <;> decide
  | product ho _ _ iha ihb =>
    rcases ho with rfl | rfl <;> refine ⟨iha.1.binary ihb.1 rfl ?_ ?_ ?_ ?_, nofun⟩
    all_goals intro o; cases o <;> decide
  | sum ho _ _ iha ihb =>
    rcases ho with rfl | rfl <;> refine ⟨iha.1.binary ihb.1 rfl ?_ ?_ ?_ ?_, nofun⟩
    all_goals intro o; cases o <;> decide
  | ofOperand _ ih => exact ⟨ih.1.mono nofun, nofun⟩
  | ofPower _ ih => exact ⟨ih.1.mono (by intro o; cases o <;> decide), nofun⟩
  | ofProduct _ ih => exact ⟨ih.1.mono fun _ _ => rfl, nofun⟩

/-- **The tokens of an infix formula are put into the postorder of the tree they
write.** -/
theorem ofTokens_eq_postorder {tokens : List Token} {t : Tree} (h : Infix .sum tokens t) :
    ofTokens tokens = .ok t.postorder :=
  (converts_phrase h).1.ofTokens

/-- `sin x ^ 2 - log(cos tan(x), 2)`: a function without parentheses takes the one
operand after it. -/
theorem ofTokens_eq_postorder_functions :
    ∃ t, Infix .sum [.call .sin none, .var "x" none, .operator .power, .number 2,
        .operator .subtract, .call .log none, .symbol .leftParen, .call .cos none,
        .call .tan none, .symbol .leftParen, .var "x" none, .symbol .rightParen, .symbol .comma,
        .number 2, .symbol .rightParen] t ∧
      ofTokens [.call .sin none, .var "x" none, .operator .power, .number 2,
        .operator .subtract, .call .log none, .symbol .leftParen, .call .cos none,
        .call .tan none, .symbol .leftParen, .var "x" none, .symbol .rightParen, .symbol .comma,
        .number 2, .symbol .rightParen] =
        .ok [.var "x" none, .call .sin none, .number 2, .operator .power, .var "x" none,
          .call .tan none, .call .cos none, .number 2, .call .log none, .operator .subtract] := by
  have hx : Infix .operand [.var "x" none] (.var "x" none) := .var "x" none
  have htwo : Infix .operand [.number 2] (.number 2) := .number 2
  have hsquare := Infix.power (hx.apply .sin none) htwo.ofOperand
  have hcos := ((hx.lift .sum).parens.apply .tan none).apply .cos none
  have hlog := @Infix.call .log none 2 ![_, _] ![_, _]
    (Fin.forall_fin_two.2 ⟨hcos.lift .sum, htwo.lift .sum⟩)
  have hdifference := Infix.sum (.inr rfl) hsquare.ofPower.ofProduct (hlog.lift .product)
  exact ⟨_, hdifference, ofTokens_eq_postorder hdifference⟩

end Postfix
end Reckoner
