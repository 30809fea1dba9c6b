import Rivulet.Proofs.Typing.Morphism
import Rivulet.Proofs.Typing.Proper
import Rivulet.Ir.Breach

set_option autoImplicit false

/-! # Types of the language as types of the code

`Ir.Ty.counterpart` carries every type of the language over to the types of intermediate code. The
map is injective and commutes with everything the operand rules ask a type system for, so that an
operator accepts two types exactly in the way it accepts their counterparts. `Ir.Ty.ofTy?`, which
the code generator uses, is the same map on types without poison and undefined on all others. -/

namespace Rivulet.Ir.Ty

/-! ## The map -/

theorem counterparts_eq_map (ts : List Rivulet.Ty) : counterparts ts = ts.map counterpart := by
  induction ts with
  | nil => rfl
  | cons t ts ih => simp [counterparts, ih]

mutual

theorem counterpart_inj : ∀ a b : Rivulet.Ty, counterpart a = counterpart b → a = b
  | .int, b, h | .bool, b, h | .str, b, h | .unit, b, h | .poison, b, h => by
      cases b <;> simp_all [counterpart]
  | .seq a, b, h => by
      cases b <;> simp only [counterpart, reduceCtorEq, Ty.slice.injEq] at h
      rw [counterpart_inj a _ h]
  | .func ps rs, b, h => by
      cases b <;> simp only [counterpart, reduceCtorEq, Ty.func.injEq] at h
      rw [counterparts_inj ps _ h.1, counterparts_inj rs _ h.2]
  | .tuple ts, b, h => by
      cases b <;> simp only [counterpart, reduceCtorEq, Ty.tuple.injEq] at h
      rw [counterparts_inj ts _ h]

theorem counterparts_inj : ∀ as bs : List Rivulet.Ty, counterparts as = counterparts bs → as = bs
  | [], bs, h => by cases bs <;> simp_all [counterparts]
  | a :: as, bs, h => by
      cases bs <;> simp only [counterparts, reduceCtorEq, List.cons.injEq] at h
      rw [counterpart_inj a _ h.1, counterparts_inj as _ h.2]

end

theorem counterpart_eq_iff {a b : Rivulet.Ty} : counterpart a = counterpart b ↔ a = b :=
  ⟨counterpart_inj a b, fun h => by rw [h]⟩

mutual

theorem hasInvalid_counterpart : ∀ t : Rivulet.Ty, (counterpart t).hasInvalid = t.hasPoison
  | .int | .bool | .str | .unit | .poison => rfl
  | .seq t => hasInvalid_counterpart t
  | .func ps rs => by
      simp only [counterpart, hasInvalid, Rivulet.Ty.hasPoison, anyInvalid_counterparts ps,
        anyInvalid_counterparts rs]
  | .tuple ts => anyInvalid_counterparts ts

theorem anyInvalid_counterparts :
    ∀ ts : List Rivulet.Ty, anyInvalid (counterparts ts) = Rivulet.Ty.anyPoison ts
  | [] => rfl
  | t :: ts => by
      simp only [counterparts, anyInvalid, Rivulet.Ty.anyPoison, hasInvalid_counterpart t,
        anyInvalid_counterparts ts]

end

theorem anyInvalid_eq_false_iff (ts : List Ty) :
    anyInvalid ts = false ↔ ∀ t ∈ ts, t.hasInvalid = false := by
  induction ts with
  | nil => simp [anyInvalid]
  | cons t ts ih => simp [anyInvalid, ih]

/-- The counterpart of a proper type is valid. -/
theorem hasInvalid_counterpart_of_proper {t : Rivulet.Ty} (h : t.proper = true) :
    (counterpart t).hasInvalid = false := by
  rw [hasInvalid_counterpart, Rivulet.Ty.hasPoison_of_proper t h]

theorem ne_invalid_of_hasInvalid {t : Ty} (h : t.hasInvalid = false) : t ≠ .invalid := by
  rintro rfl
  simp [hasInvalid] at h

theorem counterpart_ofResults (rs : List Rivulet.Ty) :
    counterpart (.ofResults rs) = .ofResults (counterparts rs) := by
  match rs with
  | [] | [_] | _ :: _ :: _ => rfl

theorem toResults_counterpart (t : Rivulet.Ty) :
    (counterpart t).toResults = counterparts t.toResults := by
  cases t <;> rfl

/-! ## The map of the code generator -/

mutual

theorem ofTy?_eq_counterpart : ∀ t : Rivulet.Ty, t.hasPoison = false →
    ofTy? t = some (counterpart t)
  | .int, _ | .bool, _ | .str, _ | .unit, _ => rfl
  | .poison, h => by simp [Rivulet.Ty.hasPoison] at h
  | .seq t, h => by simp only [ofTy?, ofTy?_eq_counterpart t h, Option.map_some, counterpart]
  | .func ps rs, h => by
      simp only [Rivulet.Ty.hasPoison, Bool.or_eq_false_iff] at h
      simp [ofTy?, ofTys?_eq_counterparts ps h.1, ofTys?_eq_counterparts rs h.2, counterpart]
  | .tuple ts, h => by simp [ofTy?, ofTys?_eq_counterparts ts h, counterpart]

theorem ofTys?_eq_counterparts : ∀ ts : List Rivulet.Ty, Rivulet.Ty.anyPoison ts = false →
    ofTys? ts = some (counterparts ts)
  | [], _ => rfl
  | t :: ts, h => by
      simp only [Rivulet.Ty.anyPoison, Bool.or_eq_false_iff] at h
      simp [ofTys?, ofTy?_eq_counterpart t h.1, ofTys?_eq_counterparts ts h.2, counterparts]

end

theorem ofTy_of_proper {t : Rivulet.Ty} (h : t.proper = true) (s : Span) :
    Ty.ofTy t s = .ok (counterpart t) := by
  simp only [Ty.ofTy, ofTy?_eq_counterpart t (Rivulet.Ty.hasPoison_of_proper t h)]

theorem ofTys_of_allProper {ts : List Rivulet.Ty} (h : Rivulet.Ty.allProper ts = true) (s : Span) :
    Ty.ofTys ts s = .ok (counterparts ts) := by
  simp only [Ty.ofTys, ofTys?_eq_counterparts ts (Rivulet.Ty.anyPoison_of_allProper ts h)]

mutual

theorem ofTy?_eq_none : ∀ t : Rivulet.Ty, t.hasPoison = true → ofTy? t = none
  | .int, h | .bool, h | .str, h | .unit, h => by simp [Rivulet.Ty.hasPoison] at h
  | .poison, _ => rfl
  | .seq t, h => by simp only [ofTy?, ofTy?_eq_none t h, Option.map_none]
  | .func ps rs, h => by
      simp only [Rivulet.Ty.hasPoison, Bool.or_eq_true] at h
      rcases h with h | h
      · simp [ofTy?, ofTys?_eq_none ps h]
      · simp [ofTy?, ofTys?_eq_none rs h]
  | .tuple ts, h => by simp only [ofTy?, ofTys?_eq_none ts h, Option.map_none]

theorem ofTys?_eq_none : ∀ ts : List Rivulet.Ty, Rivulet.Ty.anyPoison ts = true → ofTys? ts = none
  | [], h => by simp [Rivulet.Ty.anyPoison] at h
  | t :: ts, h => by
      simp only [Rivulet.Ty.anyPoison, Bool.or_eq_true] at h
      rcases h with h | h
      · simp [ofTys?, ofTy?_eq_none t h]
      · simp [ofTys?, ofTys?_eq_none ts h]

end

/-- The generator's map is the counterpart on types without poison and fails on the others. -/
theorem ofTy_eq (t : Rivulet.Ty) (span : Span) :
    ofTy t span = if t.hasPoison then .error ⟨.poisonedType, span⟩ else .ok (counterpart t) := by
  cases h : t.hasPoison with
  | true => simp [ofTy, ofTy?_eq_none t h]
  | false => simp [ofTy, ofTy?_eq_counterpart t h]

/-! ## Operands -/

/-- **The counterpart respects the shape of types.** Both constructors of sequences collapse poison,
and they do so on the same elements. -/
theorem morphism_counterpart : Typing.Morphism counterpart where
  injective := counterpart_inj
  poison := rfl
  int := rfl
  bool := rfl
  str := rfl
  seq t := by
    have hinvalid : counterpart t = .invalid ↔ t = .poison := counterpart_eq_iff (b := .poison)
    simp only [TypeShape.seq, Rivulet.Ty.seqOf, sliceOf, hinvalid]
    split <;> rfl
  element? t := by cases t <;> rfl
  callable? t := by
    cases t with
    | func ps rs =>
        simp [TypeShape.callable?, Rivulet.Ty.callable?, callable?, counterpart,
          counterparts_eq_map]
    | _ => rfl
  hasPoison := hasInvalid_counterpart

theorem homogeneous?_counterpart (rule : OperandRule) (t : Rivulet.Ty) :
    Typing.homogeneous? rule (counterpart t) = (Typing.homogeneous? rule t).map counterpart :=
  morphism_counterpart.homogeneous? rule t

/-- An accepted map without poison in its type has a sequence on its left and a callable for the
elements on its right. -/
theorem of_mapVerdict {l r t : Rivulet.Ty} (ht : t.hasPoison = false)
    (h : Typing.MapVerdict l r (.ok t)) :
    ∃ element result : Rivulet.Ty, l = .seq element ∧ r = .func [element] [result]
      ∧ element.hasPoison = false ∧ result.hasPoison = false ∧ t = .seq result := by
  cases h with
  | unknown _ _ _ => cases ht
  | @accepted element result hl hr helement =>
      have hresult : result ≠ .poison := by
        rintro rfl
        cases ht
      simp only [TypeShape.seq, Rivulet.Ty.seqOf, if_neg hresult] at ht ⊢
      exact ⟨element, result, Rivulet.Ty.eq_seq_of_element? hl, Rivulet.Ty.eq_func_of_callable? hr,
        helement, ht, rfl⟩

/-- **The rule of the map operator**, on operands that may hold poison at any depth: the type of a
map is without poison exactly if the operands are a sequence and a callable from its elements and
neither holds poison. -/
theorem checkBinary_map_iff (l r t : Rivulet.Ty) :
    (Typing.checkBinary BinaryOp.map.rule l r = .ok t ∧ t.hasPoison = false) ↔
      ∃ element result : Rivulet.Ty, l = .seq element ∧ r = .func [element] [result]
        ∧ element.hasPoison = false ∧ result.hasPoison = false ∧ t = .seq result := by
  constructor
  · rintro ⟨h, ht⟩
    have hverdict := Typing.checkBinary_verdict BinaryOp.map.rule l r
    rw [h] at hverdict
    cases hverdict with
    | poison _ => cases ht
    | map _ _ _ hmap => exact of_mapVerdict ht hmap
    | unknown hrule _ | accepted hrule _ _ => exact absurd rfl hrule
  · rintro ⟨element, result, rfl, rfl, he, hr, rfl⟩
    have hresult : result ≠ .poison := by
      rintro rfl
      simp [Rivulet.Ty.hasPoison] at hr
    have hmap : Typing.checkMap (Rivulet.Ty.seq element) (.func [element] [result])
        = .ok (.seq result) := by
      simp [Typing.checkMap, TypeShape.element?, Rivulet.Ty.element?, TypeShape.callable?,
        Rivulet.Ty.callable?, TypeShape.hasPoison, he, TypeShape.seq, Rivulet.Ty.seqOf, hresult]
    exact ⟨hmap, hr⟩

/-- **Both type systems give the same verdict.** An operator accepts two types of the language
exactly if it accepts their counterparts, with the counterpart of the result, and otherwise rejects
both with the same fault about the same operand. A map whose type holds no poison has the operands
its rule asks for. The code generator's map of types is defined exactly on the types without poison,
where it is the counterpart and keeps distinct types apart. -/
theorem checkBinary_same_verdict :
    (∀ (op : BinaryOp) (l r : Rivulet.Ty),
      (∃ t, Typing.checkBinary op.rule l r = .ok t
        ∧ Typing.checkBinary op.rule (counterpart l) (counterpart r) = .ok (counterpart t))
      ∨ ∃ e, Typing.checkBinary op.rule l r = .error e
        ∧ Typing.checkBinary op.rule (counterpart l) (counterpart r) = .error (e.map counterpart)
        ∧ (e.map counterpart).code = e.code ∧ (e.map counterpart).blame = e.blame
        ∧ (e.map counterpart).counts? = e.counts?)
    ∧ (∀ l r t : Rivulet.Ty,
      (Typing.checkBinary BinaryOp.map.rule l r = .ok t ∧ t.hasPoison = false) ↔
        ∃ element result : Rivulet.Ty, l = .seq element ∧ r = .func [element] [result]
          ∧ element.hasPoison = false ∧ result.hasPoison = false ∧ t = .seq result)
    ∧ (∀ (t : Rivulet.Ty) (span : Span),
      ((∃ u, ofTy t span = .ok u) ↔ t.hasPoison = false)
        ∧ ∀ u, ofTy t span = .ok u → u = counterpart t)
    ∧ ∀ (t t' : Rivulet.Ty) (span : Span), t.hasPoison = false → t'.hasPoison = false →
        ofTy t span = ofTy t' span → t = t' := by
  refine ⟨fun op l r => ?_, checkBinary_map_iff, fun t span => ?_, fun t t' span ht ht' h => ?_⟩
  · have hverdict := morphism_counterpart.checkBinary op.rule l r
    cases h : Typing.checkBinary op.rule l r with
    | ok t => exact .inl ⟨t, rfl, by rw [hverdict, h]; rfl⟩
    | error e => exact .inr ⟨e, rfl, by rw [hverdict, h]; rfl, by simp, by simp, by simp⟩
  · rw [ofTy_eq]
    cases t.hasPoison with
    | true => simp
    | false => simp [eq_comm]
  · rw [ofTy_eq, ofTy_eq, ht, ht'] at h
    exact counterpart_inj t t' (Except.ok.inj h)

end Rivulet.Ir.Ty
