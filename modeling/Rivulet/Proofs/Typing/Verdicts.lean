import Rivulet.Typing.Operand

set_option autoImplicit false

/-! # The verdicts of the operand rules

What the operand rules can decide, in any type system: each verdict is listed with all that it rests
on (`MapVerdict`, `BinaryVerdict`), and every verdict of the rules is one of the list
(`checkMap_verdict`, `checkBinary_verdict`). Whatever is said elsewhere about operands that are
accepted or rejected goes through these cases.

The rules do not compare types that hold poison. The verdict is then `unknown`: the operator is
accepted, and its type is poison. -/

namespace Rivulet.Typing

variable {τ : Type} [TypeShape τ]

/-- The verdicts on the operands of a map. -/
inductive MapVerdict (l r : τ) : Except (OperandFault τ) τ → Prop where
  | leftRole (hl : TypeShape.element? l = none) : MapVerdict l r (.error (.leftRole l))
  | rightRole {e : τ} (hl : TypeShape.element? l = some e) (hr : TypeShape.callable? r = none) :
      MapVerdict l r (.error (.rightRole r))
  | arity {e : τ} {ps rs : List τ} (hl : TypeShape.element? l = some e)
      (hr : TypeShape.callable? r = some (ps, rs)) (h : ¬ (ps.length = 1 ∧ rs.length = 1)) :
      MapVerdict l r (.error (.arity ps.length rs.length))
  | unknown {e p u : τ} (hl : TypeShape.element? l = some e)
      (hr : TypeShape.callable? r = some ([p], [u]))
      (h : TypeShape.hasPoison p = true ∨ TypeShape.hasPoison e = true) :
      MapVerdict l r (.ok TypeShape.poison)
  | element {e p u : τ} (hl : TypeShape.element? l = some e)
      (hr : TypeShape.callable? r = some ([p], [u])) (hp : TypeShape.hasPoison p = false)
      (he : TypeShape.hasPoison e = false) (hne : p ≠ e) : MapVerdict l r (.error (.element p e))
  | accepted {e u : τ} (hl : TypeShape.element? l = some e)
      (hr : TypeShape.callable? r = some ([e], [u])) (he : TypeShape.hasPoison e = false) :
      MapVerdict l r (.ok (TypeShape.seq u))

/-- The verdicts on the operands of an operator. -/
inductive BinaryVerdict [DecidableEq τ] (rule : OperandRule) (l r : τ) :
    Except (OperandFault τ) τ → Prop where
  | poison (h : l = TypeShape.poison ∨ r = TypeShape.poison) :
      BinaryVerdict rule l r (.ok TypeShape.poison)
  | map {v : Except (OperandFault τ) τ} (hl : l ≠ TypeShape.poison) (hr : r ≠ TypeShape.poison)
      (hrule : rule = .map) (h : MapVerdict l r v) : BinaryVerdict rule l r v
  | unknown (hrule : rule ≠ .map)
      (h : TypeShape.hasPoison l = true ∨ TypeShape.hasPoison r = true) :
      BinaryVerdict rule l r (.ok TypeShape.poison)
  | invalid (hrule : rule ≠ .map) (hl : TypeShape.hasPoison l = false)
      (hr : TypeShape.hasPoison r = false) : BinaryVerdict rule l r (.error (.invalid l r))
  | accepted {t : τ} (hrule : rule ≠ .map) (hlr : l = r) (h : homogeneous? rule l = some t) :
      BinaryVerdict rule l r (.ok t)

variable [DecidableEq τ]

theorem checkMap_verdict (l r : τ) : MapVerdict l r (checkMap l r) := by
  unfold checkMap
  split
  · rename_i hl
    exact .leftRole hl
  · rename_i e hl
    split
    · rename_i hr
      exact .rightRole hl hr
    · rename_i p u hr
      by_cases hpoison : (TypeShape.hasPoison p || TypeShape.hasPoison e) = true
      · rw [if_pos hpoison]
        exact .unknown hl hr ((Bool.or_eq_true _ _).mp hpoison)
      · obtain ⟨hp, he⟩ := Bool.or_eq_false_iff.1 (Bool.not_eq_true _ ▸ hpoison)
        rw [if_neg hpoison]
        by_cases hpe : p = e
        · rw [if_pos hpe]
          exact .accepted hl (hpe ▸ hr) he
        · rw [if_neg hpe]
          exact .element hl hr hp he hpe
    · rename_i ps rs hnot hr
      refine .arity hl hr ?_
      rintro ⟨hps, hrs⟩
      obtain ⟨p, rfl⟩ := List.length_eq_one_iff.1 hps
      obtain ⟨u, rfl⟩ := List.length_eq_one_iff.1 hrs
      exact hnot p u rfl rfl

theorem checkBinary_verdict (rule : OperandRule) (l r : τ) :
    BinaryVerdict rule l r (checkBinary rule l r) := by
  unfold checkBinary
  split
  · rename_i h
    exact .poison h
  · rename_i h
    obtain ⟨hl, hr⟩ := not_or.1 h
    split
    · rename_i hrule
      exact .map hl hr hrule (checkMap_verdict l r)
    · rename_i hrule
      split
      · rename_i hpoison
        exact .unknown hrule ((Bool.or_eq_true _ _).mp hpoison)
      · rename_i hclean
        obtain ⟨hl, hr⟩ := Bool.or_eq_false_iff.1 (Bool.not_eq_true _ ▸ hclean)
        split
        · rename_i t ht
          obtain ⟨u, hu, ht⟩ := Option.bind_eq_some_iff.1 ht
          unfold commonType? at hu
          split at hu
          · rename_i hlr
            cases hu
            exact .accepted hrule hlr ht
          · cases hu
        · exact .invalid hrule hl hr

end Rivulet.Typing
