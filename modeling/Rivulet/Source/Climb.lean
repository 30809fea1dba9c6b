import Rivulet.Source.Tree

/-!
# Grouping chains of operators

The grammar reads a chain `e₀ o₁ e₁ o₂ e₂ …` of operands and binary operators flat. `climb` groups it
into a tree by the rank and the associativity of the operators, by precedence climbing: `climbFrom`
takes operators of some rank and above, one after the other, and before an operator gets its right
operand, `climbRight` lets the operators behind it take that operand first, if they bind tighter.

Both work on what is left of the chain and hand on what they leave of it. The operands are never
looked into, even if they are operator expressions themselves: those stood in parentheses, and are
not to be regrouped.
-/

set_option autoImplicit false

namespace Rivulet.Source

/-- The rest of a chain: operators, each with the operand behind it. -/
abbrev Links := List (BinaryOp × Expr)

namespace Links

/-- Whether the next operator has the rank `least` or a higher one. -/
def Starts (links : Links) (least : Nat) : Prop :=
  ∃ link ∈ links.head?, least ≤ link.1.precedence

end Links

/-- The rank from which operators take the right operand of `op`, given that `next` comes behind it.
An operator of a higher rank takes it, and so does one of the same rank that groups to the right. -/
def rankBehind (op next : BinaryOp) : Option Nat :=
  if op.precedence < next.precedence then some (op.precedence + 1)
  else if next.precedence = op.precedence ∧ next.assoc = .right then some op.precedence
  else none

/-- The operator that takes the operand has the rank from which operators take it. -/
theorem le_precedence_of_rankBehind {op next : BinaryOp} {least : Nat}
    (h : rankBehind op next = some least) : least ≤ next.precedence := by
  unfold rankBehind at h
  split at h
  · cases h
    omega
  · split at h
    · cases h
      omega
    · cases h

/-- A tree, and the links that are left behind it. None were added, and at least one is gone if one
had to be `taken`. -/
structure Climbed (links : Links) (taken : Prop) where
  tree : Expr
  rest : Links
  length_le : rest.length ≤ links.length
  length_lt : taken → rest.length < links.length

mutual

/-- Apply operators to `lhs`, as long as their rank is at least `least`. A node spans from the start
of its left operand to the end of its right one. -/
def climbFrom (lhs : Expr) (links : Links) (least : Nat) : Climbed links (links.Starts least) :=
  match links with
  | [] => ⟨lhs, [], Nat.le_refl _, nofun⟩
  | (op, operand) :: rest =>
      if hop : least ≤ op.precedence then
        let right := climbRight op operand rest
        have hright := right.length_le
        let whole := climbFrom (.binary op lhs right.tree (lhs.span.through right.tree.span))
          right.rest least
        have hwhole : whole.rest.length < rest.length + 1 :=
          Nat.lt_succ_of_le (Nat.le_trans whole.length_le hright)
        ⟨whole.tree, whole.rest, Nat.le_of_lt hwhole, fun _ => hwhole⟩
      else ⟨lhs, (op, operand) :: rest, Nat.le_refl _, by rintro ⟨_, ⟨rfl⟩, h⟩; exact absurd h hop⟩
termination_by 2 * links.length
decreasing_by
  · rw [List.length_cons]
    omega
  · exact Nat.mul_lt_mul_of_pos_left (Nat.lt_succ_of_le hright) Nat.two_pos

/-- Make the right operand of `op`, which starts with `rhs`: as long as the next operator takes the
operand from `op`, climb. -/
def climbRight (op : BinaryOp) (rhs : Expr) (links : Links) : Climbed links False :=
  match links with
  | [] => ⟨rhs, [], Nat.le_refl _, nofun⟩
  | (next, operand) :: rest =>
      match hnext : rankBehind op next with
      | none => ⟨rhs, (next, operand) :: rest, Nat.le_refl _, nofun⟩
      | some least =>
          let inner := climbFrom rhs ((next, operand) :: rest) least
          have hinner := inner.length_lt ⟨_, rfl, le_precedence_of_rankBehind hnext⟩
          let right := climbRight op inner.tree inner.rest
          ⟨right.tree, right.rest, Nat.le_trans right.length_le (Nat.le_of_lt hinner), nofun⟩
termination_by 2 * links.length + 1
decreasing_by
  · exact Nat.lt_succ_self _
  · exact Nat.succ_lt_succ (Nat.mul_lt_mul_of_pos_left hinner Nat.two_pos)

end

/-- Group a flat chain of operands and binary operators. -/
def climb (first : Expr) (rest : Links) : Expr := (climbFrom first rest 0).tree

end Rivulet.Source
