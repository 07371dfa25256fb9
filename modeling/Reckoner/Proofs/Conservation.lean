import Reckoner.Proofs.Operands

/-! No token is lost on the way into postfix order.

Parentheses and commas hold a formula together and are not written; every other token is
written once, at once or when what it waits for has been. Two tokens that are alike are told
apart by their places: a token is followed together with the place it was read at, which it
keeps while it waits (`Transition.placed`). So at every time what is written and what waits
are together what was read, and before an operand only that is written which was read before
it (`run_placed`).

The tokens in postfix order are thus the tokens that are no parentheses and commas, in
another order, in which what comes after an operand still does: `ofTokens_rearranges`. -/
namespace Reckoner

namespace Token

/-- The token is a parenthesis or a comma. -/
def isGrouping : Token → Bool
  | symbol (.operator _) => false
  | symbol _ => true
  | _ => false

theorem not_isGrouping_of_isOperand {t : Token} (h : t.isOperand) : t.isGrouping = false := by
  cases t with
  | symbol s => cases h
  | _ => rfl

/-- The tokens that are no parentheses and commas. -/
def kept (tokens : List Token) : List Token := tokens.filter fun t => !t.isGrouping

/-- The same of tokens with their places. -/
def keptPlaces (placed : List (Token × Nat)) : List (Token × Nat) :=
  placed.filter fun e => !e.1.isGrouping

theorem map_keptPlaces (placed : List (Token × Nat)) :
    (keptPlaces placed).map Prod.fst = kept (placed.map Prod.fst) := by
  rw [kept, List.filter_map]
  rfl

theorem keptPlaces_cons (e : Token × Nat) (placed : List (Token × Nat)) :
    keptPlaces (e :: placed) = keptPlaces [e] ++ keptPlaces placed :=
  List.filter_append [e] placed

/-- An operand may only come after what was read before it. -/
def InOrder (e e' : Token × Nat) : Prop := e'.1.isOperand → e.2 < e'.2

theorem inOrder_of_not_isOperand {e e' : Token × Nat} (h : e'.1.isOperand = false) :
    InOrder e e' := by
  simp [InOrder, h]

end Token

namespace Pending

/-- What waits on a stack to be written, parentheses apart, with its places. -/
def waiting (stack : List (Pending × Nat)) : List (Token × Nat) :=
  (stack.filter (·.1 ≠ leftParen)).map (Prod.map token id)

@[simp]
theorem waiting_append (above below : List (Pending × Nat)) :
    waiting (above ++ below) = waiting above ++ waiting below := by
  simp [waiting]

@[simp]
theorem waiting_leftParen (i : Nat) (below : List (Pending × Nat)) :
    waiting ((leftParen, i) :: below) = waiting below := rfl

theorem waiting_of_closed {stack : List (Pending × Nat)} (h : leftParen ∉ stack.map Prod.fst) :
    waiting stack = stack.map (Prod.map token id) := by
  rw [waiting, List.filter_eq_self.2]
  intro e he
  simpa using ne_of_mem_of_not_mem (List.mem_map_of_mem he) h

theorem map_fst_token (stack : List (Pending × Nat)) :
    (stack.map (Prod.map token id)).map Prod.fst = (stack.map Prod.fst).map token := by
  simp

theorem not_isOperand_of_waiting {stack : List (Pending × Nat)} {e : Token × Nat}
    (h : e ∈ waiting stack) : e.1.isOperand = false := by
  obtain ⟨entry, -, rfl⟩ := List.mem_map.1 h
  exact entry.1.not_isOperand_token

/-- A function that is written leaves the others waiting. -/
theorem release_placed (stack : List (Pending × Nat)) :
    ∃ out left, out.map Prod.fst = (release (stack.map Prod.fst)).1 ∧
      left.map Prod.fst = (release (stack.map Prod.fst)).2 ∧ out ++ waiting left = waiting stack := by
  cases stack with
  | nil => exact ⟨[], [], rfl, rfl, rfl⟩
  | cons entry below =>
    obtain ⟨entry, i⟩ := entry
    cases entry with
    | call f power => exact ⟨[(.call f power, i)], below, rfl, rfl, rfl⟩
    | operator o => exact ⟨[], (.operator o, i) :: below, rfl, rfl, rfl⟩
    | leftParen => exact ⟨[], (.leftParen, i) :: below, rfl, rfl, rfl⟩

end Pending

namespace Postfix
open Pending (release waiting)
open Token (kept keptPlaces InOrder)

/-- What is written and what waits keep their places, and the token gets its own. -/
theorem Transition.placed {stack : List (Pending × Nat)} {entries after : List Pending} {t : Token}
    {written : Postfix} (h : Transition entries t written after)
    (hentries : stack.map Prod.fst = entries) (i : Nat) :
    ∃ out left, out.map Prod.fst = written ∧ left.map Prod.fst = after ∧
      (out ++ waiting left).Perm (keptPlaces [(t, i)] ++ waiting stack) := by
  cases h with
  | @number _ v => exact ⟨[(.number v, i)], stack, rfl, hentries, .rfl⟩
  | @var _ name power => exact ⟨[(.var name power, i)], stack, rfl, hentries, .rfl⟩
  | @call _ f power => exact ⟨[], (.call f power, i) :: stack, rfl, by simp [hentries], .rfl⟩
  | leftParen => exact ⟨[], (.leftParen, i) :: stack, rfl, by simp [hentries], .rfl⟩
  | @operator _ _ o habove _ =>
    obtain ⟨above, below, rfl, rfl, rfl⟩ := List.map_eq_append_iff.1 hentries
    refine ⟨_, (.operator o, i) :: below, Pending.map_fst_token above, rfl, ?_⟩
    rw [Pending.waiting_append, Pending.waiting_of_closed (Pending.not_mem_of_givesWay habove)]
    exact List.perm_middle
  | comma hclosed =>
    obtain ⟨above, rest, rfl, rfl, hrest⟩ := List.map_eq_append_iff.1 hentries
    obtain ⟨⟨_, j⟩, below, rfl, rfl, rfl⟩ := List.map_eq_cons_iff.1 hrest
    refine ⟨_, (.leftParen, j) :: below, Pending.map_fst_token above, rfl, ?_⟩
    rw [Pending.waiting_append, Pending.waiting_of_closed hclosed]
    rfl
  | rightParen hclosed =>
    obtain ⟨above, rest, rfl, rfl, hrest⟩ := List.map_eq_append_iff.1 hentries
    obtain ⟨⟨_, j⟩, below, rfl, rfl, rfl⟩ := List.map_eq_cons_iff.1 hrest
    obtain ⟨out, left, hout, hleft, hwaiting⟩ := Pending.release_placed below
    refine ⟨above.map (Prod.map Pending.token id) ++ out, left, ?_, hleft, ?_⟩
    · rw [List.map_append, Pending.map_fst_token, hout]
    · rw [Pending.waiting_append, Pending.waiting_of_closed hclosed, Pending.waiting_leftParen,
        List.append_assoc, hwaiting]
      rfl

/-- Nothing that a token writes is an operand, but for what it writes first. -/
theorem Transition.inOrder {stack after : List Pending} {t : Token} {out : List (Token × Nat)}
    (h : Transition stack t (out.map Prod.fst) after) : out.Pairwise InOrder := by
  obtain ⟨entries, hwrites⟩ := h.writes
  have hentries : ∀ t' ∈ entries.map Pending.token, t'.isOperand = false := by
    simp [Pending.not_isOperand_token]
  have hfirst : (out.map Prod.fst).Pairwise fun _ t' => t'.isOperand = false := by
    rw [hwrites, List.pairwise_append]
    refine ⟨(List.pairwise_singleton _ t).sublist List.filter_sublist, ?_, fun _ _ => hentries⟩
    exact List.pairwise_of_forall_mem_list fun _ _ t' ht' => hentries t' ht'
  exact (List.pairwise_map.1 hfirst).imp Token.inOrder_of_not_isOperand

/-- What is written and what waits are together what was read and what had waited, and an
operand is only written after what was read before it. -/
theorem run_placed {stack : List (Pending × Nat)} {after : List Pending} {tokens : List Token}
    {written : Postfix} {i : Nat} (h : run (stack.map Prod.fst) tokens = .ok (written, after))
    (hstack : ∀ e ∈ waiting stack, e.2 < i) :
    ∃ out left, out.map Prod.fst = written ∧ left.map Prod.fst = after ∧
      (out ++ waiting left).Perm (keptPlaces (tokens.zipIdx i) ++ waiting stack) ∧
      out.Pairwise InOrder := by
  induction tokens generalizing stack written i with
  | nil =>
    cases h
    exact ⟨[], stack, rfl, rfl, .rfl, .nil⟩
  | cons t rest ih =>
    obtain ⟨_, _, _, hstep, hrest, rfl⟩ := run_cons_eq_ok_iff.1 h
    have htransition := transition_of_step hstep
    obtain ⟨first, between, rfl, rfl, hfirst⟩ := htransition.placed rfl i
    have hread : ∀ e ∈ first ++ waiting between, e.2 < i + 1 := by
      intro e he
      rcases List.mem_append.1 (hfirst.mem_iff.1 he) with he | he
      · rw [List.mem_singleton.1 (List.mem_filter.1 he).1]
        exact Nat.lt_succ_self i
      · exact Nat.lt_succ_of_lt (hstack e he)
    obtain ⟨second, left, rfl, rfl, hsecond, horder⟩ :=
      ih hrest fun e he => hread e (List.mem_append_right _ he)
    refine ⟨first ++ second, left, List.map_append, rfl, ?_, ?_⟩
    · rw [List.zipIdx_cons, Token.keptPlaces_cons, List.append_assoc, List.append_assoc]
      calc
        List.Perm (first ++ (second ++ waiting left))
            (first ++ (keptPlaces (rest.zipIdx (i + 1)) ++ waiting between)) :=
          hsecond.append_left first
        List.Perm _ (keptPlaces (rest.zipIdx (i + 1)) ++ (first ++ waiting between)) :=
          List.perm_append_comm_assoc ..
        List.Perm _ (keptPlaces (rest.zipIdx (i + 1)) ++ (keptPlaces [(t, i)] ++ waiting stack)) :=
          hfirst.append_left _
        List.Perm _ (keptPlaces [(t, i)] ++ (keptPlaces (rest.zipIdx (i + 1)) ++ waiting stack)) :=
          List.perm_append_comm_assoc ..
    · -- An operand among the later ones has been read by then, as no operand waits.
      refine List.pairwise_append.2 ⟨htransition.inOrder, horder, fun e he e' he' hoperand => ?_⟩
      have hbefore := hread e (List.mem_append_left _ he)
      rcases List.mem_append.1 (hsecond.mem_iff.1 (List.mem_append_left _ he')) with hlater | hwaits
      · have hafter := List.le_snd_of_mem_zipIdx (List.mem_filter.1 hlater).1
        omega
      · rw [Pending.not_isOperand_of_waiting hwaits] at hoperand
        cases hoperand

/-- The tokens in postfix order, with their places, are those that are kept, and an operand
only comes after what was read before it. -/
theorem ofTokens_placed {tokens : List Token} {sequence : Postfix}
    (h : ofTokens tokens = .ok sequence) :
    ∃ placed : List (Token × Nat), placed.map Prod.fst = sequence ∧
      placed.Perm (keptPlaces tokens.zipIdx) ∧ placed.Pairwise InOrder := by
  obtain ⟨_, _, hrun, hclosed, rfl⟩ := ofTokens_eq_ok_iff.1 h
  obtain ⟨out, left, rfl, rfl, hperm, horder⟩ := @run_placed [] _ _ _ 0 hrun nofun
  have hwaits : ∀ e, ∀ e' ∈ waiting left, InOrder e e' := fun _ _ he' =>
    Token.inOrder_of_not_isOperand (Pending.not_isOperand_of_waiting he')
  refine ⟨out ++ waiting left, ?_, ?_, List.pairwise_append.2 ⟨horder, ?_, ?_⟩⟩
  · rw [List.map_append, Pending.waiting_of_closed hclosed, Pending.map_fst_token]
  · rwa [show waiting [] = [] from rfl, List.append_nil] at hperm
  · exact List.pairwise_of_forall_mem_list fun e _ => hwaits e
  · exact fun e _ => hwaits e

/-- The tokens in postfix order are the tokens that are no parentheses and commas. -/
theorem ofTokens_perm {tokens : List Token} {sequence : Postfix}
    (h : ofTokens tokens = .ok sequence) : sequence.Perm (kept tokens) := by
  obtain ⟨placed, rfl, hperm, -⟩ := ofTokens_placed h
  have hkept := hperm.map Prod.fst
  rwa [Token.map_keptPlaces, List.zipIdx_map_fst] at hkept

/-- Of two entries of a list in order, the one stands first that may not stand second. -/
theorem pair_sublist_of_pairwise {α : Type} {R : α → α → Prop} {l : List α} (h : l.Pairwise R)
    {a b : α} (ha : a ∈ l) (hb : b ∈ l) (hne : b ≠ a) (hba : ¬ R b a) : [a, b].Sublist l := by
  obtain ⟨front, back, rfl⟩ := List.append_of_mem ha
  have hfront : b ∉ front := fun hmem =>
    hba ((List.pairwise_append.1 h).2.2 b hmem a (List.mem_cons_self ..))
  have hback : b ∈ back := by simpa [hfront, hne] using hb
  exact ((List.singleton_sublist.2 hback).cons_cons a).trans (List.sublist_append_right ..)

/-- **Tokens are rearranged into postfix order, and what comes after an operand still does.**
No token is lost, doubled or added but for the parentheses and commas that are dropped. The
operands stay in their order, and an operand that stands before another token that is kept
is also written before it. -/
theorem ofTokens_rearranges {tokens : List Token} {sequence : Postfix}
    (h : ofTokens tokens = .ok sequence) :
    sequence.Perm (kept tokens) ∧
    sequence.filter Token.isOperand = tokens.filter Token.isOperand ∧
    ∃ placed : List (Token × Nat), placed.map Prod.fst = sequence ∧
      placed.Perm (keptPlaces tokens.zipIdx) ∧
      ∀ operand ∈ tokens.zipIdx, ∀ e ∈ tokens.zipIdx, operand.1.isOperand →
        e.1.isGrouping = false → operand.2 < e.2 → [operand, e].Sublist placed := by
  obtain ⟨placed, hplaced, hperm, horder⟩ := ofTokens_placed h
  refine ⟨ofTokens_perm h, operands_ofTokens h, placed, hplaced, hperm, ?_⟩
  intro operand hoperand e he hkind hkept hbefore
  have hplace : ∀ e ∈ tokens.zipIdx, e.1.isGrouping = false → e ∈ placed := fun e he hkept =>
    hperm.mem_iff.2 (List.mem_filter.2 ⟨he, by simpa using hkept⟩)
  have hwritten := hplace operand hoperand (Token.not_isGrouping_of_isOperand hkind)
  refine pair_sublist_of_pairwise horder hwritten (hplace e he hkept) ?_ ?_
  · intro hsame
    rw [hsame] at hbefore
    exact Nat.lt_irrefl _ hbefore
  · exact fun hafter => Nat.lt_asymm hbefore (hafter hkind)

/-- `x ^ (x -, sin y) ^ x` is no formula, and still what stands after the third operand is
written after it: the second `^`, not only the first one. -/
theorem ofTokens_rearranges_malformed :
    ∃ placed : List (Token × Nat),
      placed.map Prod.fst = [.var "x" none, .var "x" none, .operator .subtract, .var "y" none,
        .call .sin none, .var "x" none, .operator .power, .operator .power] ∧
      [(.var "y" none, 7), (.operator .power, 9)].Sublist placed := by
  obtain ⟨-, -, placed, hplaced, -, hbefore⟩ :=
    @ofTokens_rearranges [.var "x" none, .operator .power, .symbol .leftParen, .var "x" none,
      .operator .subtract, .symbol .comma, .call .sin none, .var "y" none, .symbol .rightParen,
      .operator .power, .var "x" none] _ rfl
  exact ⟨placed, hplaced, hbefore (.var "y" none, 7) (by simp) (.operator .power, 9) (by simp) rfl
    rfl (by decide)⟩

end Postfix
end Reckoner
