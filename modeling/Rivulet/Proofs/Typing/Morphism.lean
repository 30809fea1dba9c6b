import Rivulet.Typing.Operand
import Mathlib.Logic.Function.Defs

set_option autoImplicit false

/-! # Operand rules under a change of types

The operand rules ask a type system for nothing but its `TypeShape`. So if one type system is mapped
into another and the map respects the shape (`Typing.Morphism`), the rules cannot tell the two apart:
the verdict on two mapped operands is the verdict on the operands, mapped (`Morphism.checkBinary`). For
this the map has to be injective, because the rules compare types. -/

namespace Rivulet.Typing

variable {τ σ : Type}

/-- The fault in another type system. Which fault it is, and what it counts, stays as it is. -/
def OperandFault.map (f : τ → σ) : OperandFault τ → OperandFault σ
  | .leftRole found => .leftRole (f found)
  | .rightRole found => .rightRole (f found)
  | .arity params results => .arity params results
  | .element param elem => .element (f param) (f elem)
  | .invalid lhs rhs => .invalid (f lhs) (f rhs)

/-- The numbers of parameters and results that a fault of arity counts. -/
def OperandFault.counts? : OperandFault τ → Option (Nat × Nat)
  | .arity params results => some (params, results)
  | _ => none

section Fault

variable (f : τ → σ) (e : OperandFault τ)

@[simp] theorem OperandFault.code_map : (e.map f).code = e.code := by cases e <;> rfl

@[simp] theorem OperandFault.blame_map : (e.map f).blame = e.blame := by cases e <;> rfl

@[simp] theorem OperandFault.counts?_map : (e.map f).counts? = e.counts? := by cases e <;> rfl

end Fault

/-- A verdict in another type system. -/
def mapVerdict (f : τ → σ) : Except (OperandFault τ) τ → Except (OperandFault σ) σ
  | .ok t => .ok (f t)
  | .error e => .error (e.map f)

/-! ## Maps that respect the shape -/

variable [TypeShape τ] [TypeShape σ]

/-- A map between type systems that respects all that the operand rules ask for. -/
structure Morphism (f : τ → σ) : Prop where
  injective : Function.Injective f
  poison : f TypeShape.poison = TypeShape.poison
  int : f TypeShape.int = TypeShape.int
  bool : f TypeShape.bool = TypeShape.bool
  str : f TypeShape.str = TypeShape.str
  seq : ∀ t, f (TypeShape.seq t) = TypeShape.seq (f t)
  element? : ∀ t, TypeShape.element? (f t) = (TypeShape.element? t).map f
  callable? : ∀ t, TypeShape.callable? (f t)
    = (TypeShape.callable? t).map (Prod.map (List.map f) (List.map f))
  hasPoison : ∀ t, TypeShape.hasPoison (f t) = TypeShape.hasPoison t

namespace Morphism

variable {f : τ → σ} (h : Morphism f)

include h

theorem eq_iff (t u : τ) : f t = f u ↔ t = u := h.injective.eq_iff

theorem eq_poison_iff (t : τ) : f t = TypeShape.poison ↔ t = TypeShape.poison := by
  rw [← h.poison, h.eq_iff]

theorem eq_int_iff (t : τ) : f t = TypeShape.int ↔ t = TypeShape.int := by
  rw [← h.int, h.eq_iff]

theorem eq_bool_iff (t : τ) : f t = TypeShape.bool ↔ t = TypeShape.bool := by
  rw [← h.bool, h.eq_iff]

theorem eq_str_iff (t : τ) : f t = TypeShape.str ↔ t = TypeShape.str := by
  rw [← h.str, h.eq_iff]

variable [DecidableEq τ] [DecidableEq σ]

theorem commonType? (l r : τ) :
    Typing.commonType? (f l) (f r) = (Typing.commonType? l r).map f := by
  simp only [Typing.commonType?, h.eq_iff]
  split <;> rfl

theorem homogeneous? (rule : OperandRule) (t : τ) :
    Typing.homogeneous? rule (f t) = (Typing.homogeneous? rule t).map f := by
  cases rule with
  | map => rfl
  | _ =>
      simp only [Typing.homogeneous?, h.eq_int_iff, h.eq_bool_iff, h.eq_str_iff]
      split
      · simp only [Option.map_some, h.bool]
      · rfl

theorem checkMap (l r : τ) :
    Typing.checkMap (f l) (f r) = mapVerdict f (Typing.checkMap l r) := by
  unfold Typing.checkMap
  rw [h.element?, h.callable?]
  cases TypeShape.element? l with
  | none => rfl
  | some elem =>
      cases TypeShape.callable? r with
      | none => rfl
      | some sig =>
          obtain ⟨ps, rs⟩ := sig
          match ps, rs with
          | [p], [u] =>
              simp only [Option.map_some, Prod.map, List.map_cons, List.map_nil, h.hasPoison,
                h.eq_iff]
              split
              · exact congrArg Except.ok h.poison.symm
              · split
                · exact congrArg Except.ok (h.seq u).symm
                · rfl
          | [], _ | _ :: _ :: _, _ | [_], [] | [_], _ :: _ :: _ =>
              simp [Prod.map, mapVerdict, OperandFault.map]

/-- **The rules give the same verdict in both type systems.** -/
theorem checkBinary (rule : OperandRule) (l r : τ) :
    Typing.checkBinary rule (f l) (f r) = mapVerdict f (Typing.checkBinary rule l r) := by
  unfold Typing.checkBinary
  simp only [h.eq_poison_iff, h.hasPoison]
  split
  · exact congrArg Except.ok h.poison.symm
  split
  · exact h.checkMap l r
  split
  · exact congrArg Except.ok h.poison.symm
  · rw [h.commonType?]
    cases hcommon : Typing.commonType? l r with
    | none => rfl
    | some t =>
        simp only [Option.map_some, Option.bind_some, h.homogeneous?]
        cases Typing.homogeneous? rule t <;> rfl

end Morphism

end Rivulet.Typing
