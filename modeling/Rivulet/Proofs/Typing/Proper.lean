import Rivulet.Check.Env
import Rivulet.Proofs.Typing.Verdicts
import Mathlib.Tactic

set_option autoImplicit false

/-! # Proper types

The types that a program without faults can have. A type is *proper* if no poison occurs in it, if
every tuple in it has at least two components, and if no component of a tuple and no result of a
function is `unit` or a tuple itself. Such a component is called *simple*.

The second and third condition make the encoding of result lists invertible: a list of simple types
becomes one type by `Ty.ofResults` and is read back from it by `Ty.toResults`. A closure whose body
is a call depends on that, because its result list is read off the type of the call.

What the operand rules say about proper types stands at the end of the file: an accepted operator
has operands of the expected shape and a proper result. -/

namespace Rivulet

namespace Ty

/-! ## The predicate -/

/-- Whether a type stands for exactly one result. -/
def isSimple : Ty → Bool
  | .unit | .tuple _ => false
  | _ => true

mutual

/-- Whether a type is one that a program without faults can have. -/
def proper : Ty → Bool
  | .int | .bool | .str | .unit => true
  | .seq t => proper t
  | .func ps rs => allProper ps && allSimple rs
  | .tuple ts => decide (2 ≤ ts.length) && allSimple ts
  | .poison => false
termination_by structural t => t

/-- Whether all types of a list are proper. -/
def allProper : List Ty → Bool
  | [] => true
  | t :: ts => proper t && allProper ts
termination_by structural ts => ts

/-- Whether all types of a list are proper and simple, as the results of a function are. -/
def allSimple : List Ty → Bool
  | [] => true
  | t :: ts => proper t && isSimple t && allSimple ts
termination_by structural ts => ts

end

theorem allProper_iff (ts : List Ty) : allProper ts = true ↔ ∀ t ∈ ts, proper t = true := by
  induction ts with
  | nil => simp [allProper]
  | cons t ts ih => simp [allProper, ih]

theorem allSimple_iff (ts : List Ty) :
    allSimple ts = true ↔ ∀ t ∈ ts, proper t = true ∧ isSimple t = true := by
  induction ts with
  | nil => simp [allSimple]
  | cons t ts ih => simp [allSimple, ih]

theorem allProper_of_allSimple {ts : List Ty} (h : allSimple ts = true) : allProper ts = true := by
  rw [allProper_iff]
  exact fun t ht => ((allSimple_iff ts).1 h t ht).1

/-! ## Poison -/

mutual

theorem hasPoison_of_proper : ∀ t : Ty, proper t = true → hasPoison t = false
  | .int, _ | .bool, _ | .str, _ | .unit, _ => rfl
  | .seq t, h => hasPoison_of_proper t h
  | .func ps rs, h => by
      simp only [proper, Bool.and_eq_true] at h
      simp [hasPoison, anyPoison_of_allProper ps h.1, anyPoison_of_allSimple rs h.2]
  | .tuple ts, h => by
      simp only [proper, Bool.and_eq_true] at h
      exact anyPoison_of_allSimple ts h.2
  | .poison, h => by simp [proper] at h

theorem anyPoison_of_allProper : ∀ ts : List Ty, allProper ts = true → anyPoison ts = false
  | [], _ => rfl
  | t :: ts, h => by
      simp only [allProper, Bool.and_eq_true] at h
      simp [anyPoison, hasPoison_of_proper t h.1, anyPoison_of_allProper ts h.2]

theorem anyPoison_of_allSimple : ∀ ts : List Ty, allSimple ts = true → anyPoison ts = false
  | [], _ => rfl
  | t :: ts, h => by
      simp only [allSimple, Bool.and_eq_true] at h
      simp [anyPoison, hasPoison_of_proper t h.1.1, anyPoison_of_allSimple ts h.2]

end

theorem ne_poison_of_proper {t : Ty} (h : proper t = true) : t ≠ .poison := by
  rintro rfl
  simp [proper] at h

/-! ## Result lists -/

theorem proper_ofResults {rs : List Ty} (h : allSimple rs = true) :
    (ofResults rs).proper = true := by
  match rs, h with
  | [], _ => rfl
  | [t], h =>
      simp only [allSimple, Bool.and_eq_true] at h
      exact h.1.1
  | t :: u :: rs, h =>
      simp only [ofResults, proper, Bool.and_eq_true, decide_eq_true_eq, List.length_cons]
      exact ⟨by omega, h⟩

theorem allSimple_toResults {t : Ty} (h : t.proper = true) : allSimple t.toResults = true := by
  cases t with
  | unit => rfl
  | tuple ts =>
      simp only [proper, Bool.and_eq_true] at h
      exact h.2
  | _ => simp_all [toResults, allSimple, isSimple]

/-- **The encoding of result lists can be undone**, on the types that occur. -/
theorem ofResults_toResults {t : Ty} (h : t.proper = true) : ofResults t.toResults = t := by
  cases t with
  | tuple ts =>
      simp only [proper, Bool.and_eq_true, decide_eq_true_eq] at h
      match ts, h.1 with
      | a :: b :: ts, _ => rfl
  | _ => rfl

/-! ## Shapes -/

theorem eq_seq_of_element? {t u : Ty} (h : TypeShape.element? t = some u) : t = .seq u := by
  cases t with
  | seq v => exact congrArg seq (Option.some.inj h)
  | _ => cases h

theorem eq_func_of_callable? {t : Ty} {ps rs : List Ty}
    (h : TypeShape.callable? t = some (ps, rs)) : t = .func ps rs := by
  cases t with
  | func qs ss =>
      obtain ⟨rfl, rfl⟩ := Prod.mk.inj (Option.some.inj h)
      rfl
  | _ => cases h

theorem proper_element {t u : Ty} (h : t.proper = true) (hu : t.element? = some u) :
    u.proper = true := by
  obtain rfl := eq_seq_of_element? hu
  exact h

end Ty

/-! ## Written types -/

namespace Check

theorem isSimple_typeOf (t : Source.TypeExpr) : (typeOf t).isSimple = true := by
  match t with
  | .named .int | .named .string | .named .bool | .seq _ | .func _ _ => rfl

mutual

theorem proper_typeOf : ∀ t : Source.TypeExpr, (typeOf t).proper = true
  | .named .int | .named .string | .named .bool => rfl
  | .seq t => proper_typeOf t
  | .func ps rs => by
      simp only [typeOf, Ty.proper, Bool.and_eq_true]
      exact ⟨Ty.allProper_of_allSimple (allSimple_typesOf ps), allSimple_typesOf rs⟩

theorem allSimple_typesOf : ∀ ts : List Source.TypeExpr, Ty.allSimple (typesOf ts) = true
  | [] => rfl
  | t :: ts => by
      simp only [typesOf, Ty.allSimple, Bool.and_eq_true]
      exact ⟨⟨proper_typeOf t, isSimple_typeOf t⟩, allSimple_typesOf ts⟩

end

end Check

/-! ## Operands -/

namespace Typing

theorem MapVerdict.of_proper {l r t : Ty} (h : MapVerdict l r (.ok t)) (hl : l.proper = true)
    (hr : r.proper = true) : ∃ e u, l = .seq e ∧ r = .func [e] [u] ∧ t = .seq u := by
  cases h with
  | @unknown e p u he hp hpoison =>
      -- nothing proper holds poison
      obtain rfl := Ty.eq_seq_of_element? he
      obtain rfl := Ty.eq_func_of_callable? hp
      simp only [Ty.proper, Ty.allProper, Bool.and_eq_true] at hl hr
      rcases hpoison with hpoison | hpoison
      · exact absurd hpoison (by simp [TypeShape.hasPoison, Ty.hasPoison_of_proper p hr.1.1])
      · exact absurd hpoison (by simp [TypeShape.hasPoison, Ty.hasPoison_of_proper e hl])
  | @accepted e u he hp _ =>
      obtain rfl := Ty.eq_seq_of_element? he
      obtain rfl := Ty.eq_func_of_callable? hp
      simp only [Ty.proper, Ty.allSimple, Bool.and_eq_true] at hr
      exact ⟨e, u, rfl, rfl, if_neg (Ty.ne_poison_of_proper hr.2.1.1)⟩

/-- What an accepted operator says about its operands: for `|>` a sequence and a callable on its
elements, for every other operator one common type. -/
theorem checkBinary_eq_ok {rule : OperandRule} {l r t : Ty} (hl : l.proper = true)
    (hr : r.proper = true) (h : checkBinary rule l r = .ok t) :
    (rule = .map ∧ ∃ e u, l = .seq e ∧ r = .func [e] [u] ∧ t = .seq u) ∨
      (rule ≠ .map ∧ l = r ∧ homogeneous? rule l = some t) := by
  have hverdict := checkBinary_verdict rule l r
  rw [h] at hverdict
  cases hverdict with
  | poison hpoison =>
      rcases hpoison with hpoison | hpoison
      · exact absurd hpoison (Ty.ne_poison_of_proper hl)
      · exact absurd hpoison (Ty.ne_poison_of_proper hr)
  | map _ _ hrule hmap => exact .inl ⟨hrule, hmap.of_proper hl hr⟩
  | unknown _ hpoison =>
      rcases hpoison with hpoison | hpoison
      · exact absurd hpoison (by simp [TypeShape.hasPoison, Ty.hasPoison_of_proper l hl])
      · exact absurd hpoison (by simp [TypeShape.hasPoison, Ty.hasPoison_of_proper r hr])
  | accepted hrule hlr ht => exact .inr ⟨hrule, hlr, ht⟩

theorem homogeneous?_proper {rule : OperandRule} {l t : Ty} (h : homogeneous? rule l = some t) :
    t.proper = true := by
  cases rule <;> simp only [homogeneous?] at h <;>
    first
    | (split at h
       · rename_i hl
         simp only [TypeShape.int, TypeShape.str, TypeShape.bool, Option.some.injEq] at hl h
         subst h
         first | rfl | (subst hl; rfl) | (rcases hl with rfl | rfl <;> rfl)
       · cases h)
    | cases h

/-- The result of an accepted operator is proper. -/
theorem proper_of_checkBinary {rule : OperandRule} {l r t : Ty} (hl : l.proper = true)
    (hr : r.proper = true) (h : checkBinary rule l r = .ok t) : t.proper = true := by
  rcases checkBinary_eq_ok hl hr h with ⟨-, e, u, -, rfl, rfl⟩ | ⟨-, -, hh⟩
  · simp only [Ty.proper, Ty.allSimple, Bool.and_eq_true] at hr ⊢
    exact hr.2.1.1
  · exact homogeneous?_proper hh

end Typing

end Rivulet
