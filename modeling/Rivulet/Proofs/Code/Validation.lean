import Rivulet.Proofs.Code.WellTyped

set_option autoImplicit false

/-! # Validation accepts well-typed code

Validation derives every type anew and writes it over the type that was there. On well-typed code
the two agree, so nothing is reported and nothing changes: `Validate.expr sc e = pure e`, where
`pure` is a report without findings. There is one lemma for each typing rule of
`Ir/Validate/Rule`, and then one walk over the code. -/

namespace Rivulet.Ir.Validate

open Typing (expect)

/-! ## The rules -/

/-- Nothing is found wrong with a type that is the expected one. -/
theorem expect_self (place : Typing.Place) (t : Ty) (s : Span) : expect place t t s = pure true := by
  simp [expect]

theorem unaryTy_of_eq {op : UnaryOp} {e : Expr} (h : e.ty = unaryOperandTy op) :
    unaryTy op e = pure (unaryOperandTy op) := by
  have hne : unaryOperandTy op ≠ .invalid := by cases op <;> simp [unaryOperandTy]
  simp [unaryTy, h, hne]

/-- Only `|>` is checked by the rule of maps. -/
theorem rule_eq_map_iff (op : BinaryOp) : op.rule = .map ↔ op = .map := by
  cases op <;> simp [BinaryOp.rule]

theorem binaryTy_of_operatorTy {op : BinaryOp} {l r : Expr} {common : Option Ty} {t : Ty}
    (s : Span) (h : OperatorTy op l.ty r.ty common t) (hl : l.ty.hasInvalid = false)
    (hr : r.ty.hasInvalid = false) : binaryTy op l r s = pure t := by
  have hli : l.ty ≠ .invalid := Ty.ne_invalid_of_hasInvalid hl
  have hri : r.ty ≠ .invalid := Ty.ne_invalid_of_hasInvalid hr
  have hck : Typing.checkBinary op.rule l.ty r.ty = .ok t := by
    rcases h with ⟨rfl, -, e, u, hle, hru, rfl⟩ | ⟨hop, -, hlr, hh⟩
    · rw [hle] at hl
      rw [hru] at hr
      simp only [Ty.hasInvalid, Ty.anyInvalid, Bool.or_false, Bool.or_eq_false_iff] at hl hr
      have hu : u ≠ .invalid := Ty.ne_invalid_of_hasInvalid hr.2
      simp [Typing.checkBinary, Typing.checkMap, BinaryOp.rule, hle, hru, TypeShape.poison,
        TypeShape.element?, Ty.element?, TypeShape.callable?, Ty.callable?, TypeShape.hasPoison, hl,
        TypeShape.seq, Ty.sliceOf, hu]
    · have hrule : op.rule ≠ .map := fun hm => hop ((rule_eq_map_iff op).1 hm)
      rw [hlr] at hh
      simp [Typing.checkBinary, Typing.commonType?, hlr, hri, hr, hrule, hh, TypeShape.poison,
        TypeShape.hasPoison]
  simp only [binaryTy, hck]

/-- The common operand type of an accepted operator is the one that is there. -/
theorem operandTy_of_operatorTy {op : BinaryOp} {l : Expr} {rty : Ty} {common : Option Ty} {t : Ty}
    (h : OperatorTy op l.ty rty common t) (ht : t.hasInvalid = false) :
    operandTy op l t common = common := by
  have hti : t ≠ .invalid := Ty.ne_invalid_of_hasInvalid ht
  rcases h with ⟨rfl, -, -⟩ | ⟨hop, rfl, -, -⟩
  · rfl
  · have hrule : op.rule.isHomogeneous = true := by
      cases op <;> first | rfl | exact absurd rfl hop
    simp [operandTy, hrule, hti]

theorem indexTy_of_slice {s p : Expr} {t : Ty} (hs : s.ty = .slice t) (hp : p.ty = .i64) :
    indexTy s p = pure t := by
  simp [indexTy, hs, hp, Ty.element?, expect_self]

theorem lenTy_of_slice {e : Expr} {t : Ty} (h : e.ty = .slice t) : lenTy e = pure .i64 := by
  simp [lenTy, h, Ty.element?]

theorem sameElements_of_forall {t : Ty} {es : List Expr} (h : ∀ e ∈ es, e.ty = t) :
    sameElements t es = pure true := by
  induction es with
  | nil => rfl
  | cons e es ih =>
      simp only [List.mem_cons, forall_eq_or_imp] at h
      simp only [sameElements, h.1, if_true]
      exact ih h.2

theorem sliceTy_of_forall {t : Ty} {es : List Expr} (s : Span) (h : ∀ e ∈ es, e.ty = t)
    (ht : t.hasInvalid = false) : sliceTy (.slice t) es s = pure (.slice t) := by
  cases es with
  | nil => simp [sliceTy, Ty.element?]
  | cons e es =>
      have hany : ((e :: es).any fun e => e.ty.hasInvalid) = false := by
        rw [List.any_eq_false]
        intro a ha
        simp [h a ha, ht]
      have hti : t ≠ .invalid := Ty.ne_invalid_of_hasInvalid ht
      simp only [List.mem_cons, forall_eq_or_imp] at h
      simp only [sliceTy, hany, Bool.false_eq_true, if_false, h.1, sameElements_of_forall h.2,
        pure_bind, if_true, Ty.sliceOf, if_neg hti]

theorem arguments_self (n : Nat) (as : List Expr) : arguments n as (as.map Expr.ty) = pure true := by
  induction as generalizing n with
  | nil => rfl
  | cons a as ih => simp [arguments, expect_self, ih]

theorem callTy_of_func {f : Expr} {as : List Expr} {rs : List Ty} (s : Span)
    (hf : f.ty = .func (as.map Expr.ty) rs) (has : ∀ a ∈ as, a.ty.hasInvalid = false) :
    callTy f as s = pure (.ofResults rs) := by
  have hany : (as.any fun a => a.ty.hasInvalid) = false := by
    rw [List.any_eq_false]
    intro a ha
    simp [has a ha]
  simp [callTy, hf, arguments_self, hany]

/-- Returned values that stand for the expected results are accepted. -/
theorem return_of_returned {rs : List Ty} {es : List Expr} (h : returned rs es = rs) :
    return_ rs es = pure () := by
  have hsame : ∀ p ∈ rs.zip rs, p.1 = p.2 := by
    intro p hp
    obtain ⟨i, hi, heq⟩ := List.mem_iff_getElem.1 hp
    simp only [List.getElem_zip] at heq
    rw [← heq]
  unfold return_
  simp only [h]
  split
  · rfl
  · rw [if_neg (by simp), List.find?_eq_none.2 fun p hp => by simp [hsame p hp]]

theorem bound_of_eq {ctx : Context} {x : LocalId} {e : Expr} (h : e.ty = ctx.typeOf x) :
    bound ctx x e = pure () := by
  simp [bound, h, expect_self]

theorem condition_of_bool {c : Expr} (h : c.ty = .bool) : condition c = pure () := by
  simp [condition, h, expect_self]

end Validate

/-! ## Modules -/

theorem Validate.signatures_lookup {m : Module} {f : String} {t : Ty}
    (h : (Validate.signatures m).lookup f = some t) :
    ∃ g ∈ m.functions, g.name = f ∧ g.signature = t := by
  have hmem : (f, t) ∈ Validate.signatures m := by
    have := List.lookup_eq_some_iff.1 h
    obtain ⟨l₁, l₂, heq, -⟩ := this
    rw [heq]
    simp
  simp only [Validate.signatures, List.mem_reverse, List.mem_map, Prod.mk.injEq] at hmem
  exact hmem

/-- The scene of a well-typed function in a well-typed module is valid. -/
theorem Module.WellTyped.scene_valid {m : Module} (hm : m.WellTyped) {f : Function}
    (hf : f ∈ m.functions) : (Validate.Scene.mk f.ctx (Validate.signatures m)).Valid := by
  refine ⟨(hm f hf).locals_valid, fun g t hg => ?_, fun g t hg => ?_⟩
  case refine_2 =>
    obtain ⟨k, -, -, rfl⟩ := Validate.signatures_lookup hg
    exact ⟨_, _, rfl⟩
  obtain ⟨k, hk, -, rfl⟩ := Validate.signatures_lookup hg
  have hps : Ty.anyInvalid (k.params.map k.ctx.typeOf) = false := by
    rw [Ty.anyInvalid_eq_false_iff]
    intro t ht
    obtain ⟨x, hx, rfl⟩ := List.mem_map.1 ht
    exact (hm k hk).locals_valid x ((hm k hk).params_known x hx)
  simp only [Function.signature, Ty.hasInvalid, hps, (hm k hk).results_valid, Bool.or_self]

/-- The body of a well-typed function can be run. -/
theorem Module.WellTyped.body {m : Module} (hm : m.WellTyped) {f : Function}
    (hf : f ∈ m.functions) :
    Stmt.WellTypedBody ⟨f.ctx, Validate.signatures m⟩ f.results f.params f.body where
  valid := hm.scene_valid hf
  declared := (hm f hf).locals_declared
  live_known := (hm f hf).params_known
  block := (hm f hf).body
  returns := (hm f hf).returns

end Rivulet.Ir
