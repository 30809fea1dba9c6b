import Rivulet.Proofs.Check.Soundness
import Rivulet.Proofs.Code.Settled

set_option autoImplicit false

/-! # Silent validation

Code that comes out of a validation that reports nothing, and in which no type is invalid, is settled,
whatever was written on it before (`Module.settled_validate`). Every rule of validation is read
backwards first: if it reports nothing and the types it is given are valid, then they are as the rule
wants them. -/

namespace Rivulet.Ir

open Validate (Scene)

/-! ## Shapes of types -/

theorem Ty.eq_slice_of_element? {t u : Ty} (h : TypeShape.element? t = some u) : t = .slice u := by
  cases t with
  | slice v => exact congrArg Ty.slice (Option.some.inj h)
  | _ => cases h

theorem Ty.eq_func_of_callable? {t : Ty} {ps rs : List Ty}
    (h : TypeShape.callable? t = some (ps, rs)) : t = .func ps rs := by
  cases t with
  | func qs ss =>
      obtain ⟨rfl, rfl⟩ := Prod.mk.inj (Option.some.inj h)
      rfl
  | _ => cases h

/-! ## The locals that occur in code -/

mutual

/-- The locals that occur in an expression: those that are read and captured, and those that its
closures bind. -/
def Expr.ids : Expr → List LocalId
  | .const _ _ | .function _ _ | .builtin _ _ => []
  | .local x _ => [x]
  | .unary _ e _ | .len e _ | .alloc _ e _ _ => e.ids
  | .binary _ l r _ _ _ => l.ids ++ r.ids
  | .call f as _ => f.ids ++ Expr.idsList as
  | .index s p _ _ => s.ids ++ p.ids
  | .slice es _ _ => Expr.idsList es
  | .closure ps _ cs b _ => ps ++ cs ++ Stmt.idsList b
termination_by structural e => e

/-- The locals that occur in several expressions. -/
def Expr.idsList : List Expr → List LocalId
  | [] => []
  | e :: es => e.ids ++ Expr.idsList es
termination_by structural es => es

/-- The locals that occur in a statement. -/
def Stmt.ids : Stmt → List LocalId
  | .bind x e | .assign x e => x :: e.ids
  | .store s p v _ => s.ids ++ p.ids ++ v.ids
  | .expr e => e.ids
  | .return es => Expr.idsList es
  | .if c t e => c.ids ++ Stmt.idsList t ++ Stmt.idsList e
  | .while c b => c.ids ++ Stmt.idsList b
  | .break => []
  | .for x a z b => x :: (a.ids ++ z.ids ++ Stmt.idsList b)
termination_by structural s => s

/-- The locals that occur in a block. -/
def Stmt.idsList : List Stmt → List LocalId
  | [] => []
  | s :: ss => s.ids ++ Stmt.idsList ss
termination_by structural ss => ss

end

namespace Validate

open Typing (expect)

/-! ## The rules, read backwards

What follows if a rule reports nothing, and no type is invalid. -/

theorem eq_of_expect {place : Typing.Place} {t u : Ty} {s : Span}
    (h : (expect place t u s).findings = []) (ht : t.hasInvalid = false)
    (hu : u.hasInvalid = false) : t = u := by
  unfold expect at h
  split at h
  · rename_i hc
    simpa [TypeShape.hasPoison, ht, hu] using hc
  · simp at h

theorem unaryTy_silent {op : UnaryOp} {e : Expr} (h : (unaryTy op e).findings = [])
    (he : e.ty.hasInvalid = false) :
    e.ty = unaryOperandTy op ∧ (unaryTy op e).value = unaryOperandTy op := by
  have hne := Ty.ne_invalid_of_hasInvalid he
  unfold unaryTy at h ⊢
  rw [if_neg hne] at h ⊢
  split at h
  · rename_i heq
    exact ⟨heq, by rw [if_pos heq]; rfl⟩
  · simp [reject] at h

/-- A map is accepted without a report if it applies a function of the elements. -/
theorem of_mapVerdict_valid {l r t : Ty} (h : Typing.MapVerdict l r (.ok t))
    (hl : l.hasInvalid = false) (hr : r.hasInvalid = false) :
    ∃ e u, l = .slice e ∧ r = .func [e] [u] ∧ t = .slice u := by
  cases h with
  | @unknown e p u he hp hpoison =>
      -- the comparison is skipped only for invalid types
      obtain rfl := Ty.eq_slice_of_element? he
      obtain rfl := Ty.eq_func_of_callable? hp
      simp only [Ty.hasInvalid, Ty.anyInvalid, Bool.or_false, Bool.or_eq_false_iff] at hl hr
      rcases hpoison with hpoison | hpoison
      · exact absurd hpoison (by simp [TypeShape.hasPoison, hr.1])
      · exact absurd hpoison (by simp [TypeShape.hasPoison, hl])
  | @accepted e u he hp _ =>
      obtain rfl := Ty.eq_slice_of_element? he
      obtain rfl := Ty.eq_func_of_callable? hp
      simp only [Ty.hasInvalid, Ty.anyInvalid, Bool.or_false, Bool.or_eq_false_iff] at hr
      exact ⟨e, u, rfl, rfl, if_neg (Ty.ne_invalid_of_hasInvalid hr.2)⟩

theorem binaryTy_silent {op : BinaryOp} {l r : Expr} {s : Span}
    (h : (binaryTy op l r s).findings = []) (hl : l.ty.hasInvalid = false)
    (hr : r.ty.hasInvalid = false) :
    OperatorTy op l.ty r.ty (if op = .map then none else some l.ty) (binaryTy op l r s).value := by
  unfold binaryTy at h ⊢
  have hverdict := Typing.checkBinary_verdict op.rule l.ty r.ty
  cases hck : Typing.checkBinary op.rule l.ty r.ty with
  | error f => simp [hck, reject] at h
  | ok t =>
      rw [hck] at hverdict
      cases hverdict with
      | poison hpoison =>
          rcases hpoison with hpoison | hpoison
          · exact absurd hpoison (Ty.ne_invalid_of_hasInvalid hl)
          · exact absurd hpoison (Ty.ne_invalid_of_hasInvalid hr)
      | map _ _ hrule hmap =>
          have hop := (rule_eq_map_iff op).1 hrule
          exact .inl ⟨hop, if_pos hop, of_mapVerdict_valid hmap hl hr⟩
      | unknown _ hpoison =>
          rcases hpoison with hpoison | hpoison
          · exact absurd hpoison (by simp [TypeShape.hasPoison, hl])
          · exact absurd hpoison (by simp [TypeShape.hasPoison, hr])
      | accepted hrule hlr ht =>
          have hop : op ≠ .map := fun hm => hrule ((rule_eq_map_iff op).2 hm)
          exact .inr ⟨hop, if_neg hop, hlr, ht⟩

/-- On every operator but a map, the type of the left operand is recorded as the common one. -/
theorem operandTy_of_ne_map {op : BinaryOp} {l : Expr} {t : Ty} {common : Option Ty}
    (hop : op ≠ .map) (ht : t.hasInvalid = false) : operandTy op l t common = some l.ty := by
  have hrule : op.rule.isHomogeneous = true := by
    cases op <;> first | rfl | exact absurd rfl hop
  simp [operandTy, hrule, Ty.ne_invalid_of_hasInvalid ht]

theorem indexTy_silent {s p : Expr} (h : (indexTy s p).findings = [])
    (hs : s.ty.hasInvalid = false) (hp : p.ty.hasInvalid = false) :
    s.ty = .slice (indexTy s p).value ∧ p.ty = .i64 := by
  have hsi := Ty.ne_invalid_of_hasInvalid hs
  have hpi := Ty.ne_invalid_of_hasInvalid hp
  unfold indexTy at h
  rw [if_neg (by simp [hsi, hpi])] at h
  cases hst : s.ty with
  | slice t =>
      rw [hst] at h
      have hexp : (expect .index .i64 p.ty p.span).findings = [] := by simpa [Ty.element?] using h
      have hpt : p.ty = .i64 := (eq_of_expect hexp rfl hp).symm
      rw [indexTy_of_slice hst hpt]
      exact ⟨rfl, hpt⟩
  | invalid => exact absurd hst hsi
  | _ => rw [hst] at h; simp [Ty.element?, reject] at h

theorem lenTy_silent {e : Expr} (h : (lenTy e).findings = []) (he : e.ty.hasInvalid = false) :
    (∃ t, e.ty = .slice t) ∧ (lenTy e).value = .i64 := by
  have hei := Ty.ne_invalid_of_hasInvalid he
  unfold lenTy at h
  rw [if_neg hei] at h
  cases het : e.ty with
  | slice t =>
      rw [lenTy_of_slice het]
      exact ⟨⟨t, rfl⟩, rfl⟩
  | invalid => exact absurd het hei
  | _ => rw [het] at h; simp [Ty.element?, reject] at h

theorem allocTy_silent {t : Ty} {n : Expr} (h : (allocTy t n).findings = [])
    (hn : n.ty.hasInvalid = false) (hv : (allocTy t n).value.hasInvalid = false) :
    n.ty = .i64 ∧ (allocTy t n).value = .slice t ∧ t.hasInvalid = false := by
  have hexp : (expect .allocationLength .i64 n.ty n.span).findings = [] := by
    simpa [allocTy] using h
  have hnt : n.ty = .i64 := (eq_of_expect hexp rfl hn).symm
  have hvalue : (allocTy t n).value = Ty.sliceOf t := by simp [allocTy, hnt, expect_self]
  rw [hvalue] at hv ⊢
  unfold Ty.sliceOf at hv ⊢
  split at hv
  · cases hv
  · rename_i ht
    rw [if_neg ht]
    exact ⟨hnt, rfl, hv⟩

theorem sameElements_silent {t : Ty} {es : List Expr} (h : (sameElements t es).findings = []) :
    ∀ e ∈ es, e.ty = t := by
  induction es with
  | nil => simp
  | cons e es ih =>
      unfold sameElements at h
      split at h
      · rename_i he
        exact List.forall_mem_cons.2 ⟨he, ih h⟩
      · simp [reject] at h

theorem sliceTy_silent {declared : Ty} {es : List Expr} {s : Span}
    (h : (sliceTy declared es s).findings = [])
    (hes : ∀ e ∈ es, e.ty.hasInvalid = false)
    (hv : (sliceTy declared es s).value.hasInvalid = false) :
    ∃ t, (sliceTy declared es s).value = .slice t ∧ ∀ e ∈ es, e.ty = t := by
  cases es with
  | nil =>
      rw [sliceTy] at h hv ⊢
      cases declared with
      | slice t => exact ⟨t, rfl, by simp⟩
      | invalid => cases hv
      | _ => simp [Ty.element?, reject] at h
  | cons e es =>
      have hany : ((e :: es).any fun e => e.ty.hasInvalid) = false := by
        rw [List.any_eq_false]
        intro d hd
        simp [hes d hd]
      have hsame : (sameElements e.ty es).findings = [] := by
        simpa [sliceTy, hany] using h
      have hall : ∀ d ∈ e :: es, d.ty = e.ty :=
        List.forall_mem_cons.2 ⟨rfl, sameElements_silent hsame⟩
      have hslice : sliceTy declared (e :: es) s = sliceTy (.slice e.ty) (e :: es) s := rfl
      rw [hslice, sliceTy_of_forall s hall (hes e (by simp))]
      exact ⟨e.ty, rfl, hall⟩

theorem arguments_silent {n : Nat} {as : List Expr} {ps : List Ty}
    (h : (arguments n as ps).findings = []) (hlen : as.length = ps.length)
    (has : ∀ a ∈ as, a.ty.hasInvalid = false) (hps : ∀ p ∈ ps, p.hasInvalid = false) :
    ps = as.map Expr.ty := by
  induction as generalizing n ps with
  | nil => exact List.length_eq_zero_iff.1 hlen.symm
  | cons a as ih =>
      cases ps with
      | nil => simp at hlen
      | cons p ps =>
          simp only [arguments, Report.findings_bind, List.append_eq_nil_iff] at h
          simp only [List.mem_cons, forall_eq_or_imp] at has hps
          have hp := eq_of_expect h.1 hps.1 has.1
          have hrest := ih h.2.1 (by simpa using hlen) has.2 hps.2
          rw [List.map_cons, hp, ← hrest]

theorem callTy_silent {f : Expr} {as : List Expr} {s : Span} (h : (callTy f as s).findings = [])
    (hf : f.ty.hasInvalid = false) (has : ∀ a ∈ as, a.ty.hasInvalid = false) :
    ∃ rs, f.ty = .func (as.map Expr.ty) rs ∧ (callTy f as s).value = .ofResults rs := by
  unfold callTy at h
  cases hft : f.ty with
  | func ps rs =>
      rw [hft] at h hf
      simp only [Ty.hasInvalid, Bool.or_eq_false_iff] at hf
      by_cases hlen : as.length = ps.length
      · have hargs : (arguments 1 as ps).findings = [] := by simpa [hlen] using h
        have hps := arguments_silent hargs hlen has ((Ty.anyInvalid_eq_false_iff _).1 hf.1)
        rw [hps] at hft ⊢
        exact ⟨rs, rfl, by rw [callTy_of_func s hft has]; rfl⟩
      · simp [hlen, reject] at h
  | invalid => rw [hft] at hf; cases hf
  | _ => rw [hft] at h; simp [reject] at h

theorem printTy_silent {as : List Expr} {s : Span} (h : (printTy as s).findings = []) :
    as.length = 1 ∧ (printTy as s).value = .unit := by
  unfold printTy at h ⊢
  split at h
  · simp [reject] at h
  · rename_i hlen
    exact ⟨by simpa using hlen, by rw [if_neg hlen]; rfl⟩

theorem return_silent {rs : List Ty} {es : List Expr} (h : (return_ rs es).findings = [])
    (hes : ∀ e ∈ es, e.ty.hasInvalid = false) : returned rs es = rs := by
  -- no type that is returned is invalid, so the report is not left out on its account
  have hfound : ∀ t ∈ returned rs es, t.hasInvalid = false := by
    intro t ht
    unfold returned at ht
    split at ht
    · rename_i v
      have hv := hes v (by simp)
      split at ht
      · cases hvt : v.ty with
        | tuple ts =>
            rw [hvt] at ht hv
            exact (Ty.anyInvalid_eq_false_iff _).1 hv t ht
        | unit => rw [hvt] at ht; simp [Ty.toResults] at ht
        | _ => rw [hvt] at ht; simp only [Ty.toResults, List.mem_singleton] at ht; rwa [ht, ← hvt]
      · rw [List.mem_singleton] at ht
        rwa [ht]
    · obtain ⟨e, he, rfl⟩ := List.mem_map.1 ht
      exact hes e he
  have hany : (returned rs es).any Ty.hasInvalid = false := by
    rw [List.any_eq_false]
    intro t ht
    simp [hfound t ht]
  unfold return_ at h
  simp only [hany, Bool.false_eq_true, if_false] at h
  by_cases hlen : (returned rs es).length = rs.length
  · rw [if_neg (by simpa using hlen)] at h
    split at h
    · simp at h
    · rename_i hnone
      refine List.ext_getElem hlen fun i hi hj => ?_
      have hmem : (rs[i], (returned rs es)[i]) ∈ rs.zip (returned rs es) := by
        rw [List.mem_iff_getElem]
        exact ⟨i, by simp [hi, hj], by simp⟩
      have heq : rs[i] = (returned rs es)[i] := by simpa using List.find?_eq_none.1 hnone _ hmem
      exact heq.symm
  · rw [if_pos (by simpa using hlen)] at h
    simp at h

theorem store_silent {s p v : Expr} (h : (store s p v).findings = [])
    (hs : s.ty.hasInvalid = false) (hp : p.ty.hasInvalid = false) (hv : v.ty.hasInvalid = false) :
    s.ty = .slice v.ty ∧ p.ty = .i64 := by
  simp only [store, Report.findings_bind, List.append_eq_nil_iff] at h
  have hpt : p.ty = .i64 := (eq_of_expect h.1 rfl hp).symm
  refine ⟨?_, hpt⟩
  have hrest := h.2
  cases hst : s.ty with
  | slice t =>
      rw [hst] at hrest hs
      have hexp : (expect .storedValue t v.ty v.span).findings = [] := by
        simpa [Ty.element?] using hrest
      rw [eq_of_expect hexp hs hv]
  | invalid => rw [hst] at hs; cases hs
  | _ => rw [hst] at hrest; simp [Ty.element?] at hrest

theorem bound_silent {ctx : Context} {x : LocalId} {e : Expr} (h : (bound ctx x e).findings = [])
    (hx : (ctx.typeOf x).hasInvalid = false) (he : e.ty.hasInvalid = false) :
    e.ty = ctx.typeOf x := by
  have hexp : (expect (.boundValue (ctx.nameOf x)) (ctx.typeOf x) e.ty e.span).findings = [] := by
    simpa [bound] using h
  exact (eq_of_expect hexp hx he).symm

theorem condition_silent {c : Expr} (h : (condition c).findings = [])
    (hc : c.ty.hasInvalid = false) : c.ty = .bool := by
  have hexp : (expect .condition .bool c.ty c.span).findings = [] := by simpa [condition] using h
  exact (eq_of_expect hexp rfl hc).symm

theorem range_silent {ctx : Context} {x : LocalId} {a z : Expr}
    (h : (range ctx x a z).findings = []) (ha : a.ty.hasInvalid = false)
    (hz : z.ty.hasInvalid = false) (hx : (ctx.typeOf x).hasInvalid = false) :
    a.ty = .i64 ∧ z.ty = .i64 ∧ ctx.typeOf x = .i64 := by
  simp only [range, Report.findings_bind, List.append_eq_nil_iff] at h
  exact ⟨(eq_of_expect h.1 rfl ha).symm, (eq_of_expect h.2.1 rfl hz).symm,
    (eq_of_expect h.2.2.1 rfl hx).symm⟩

/-! ## The walk -/

section Walk

variable {sc : Scene}

mutual

theorem settled_expr (hlocals : ∀ x, sc.ctx.Knows x → (sc.ctx.typeOf x).hasInvalid = false) :
    ∀ e : Expr, (∀ x ∈ e.ids, sc.ctx.Knows x) → (expr sc e).findings = [] →
    (∀ p ∈ (expr sc e).value.parts, p.ty.hasInvalid = false) → (expr sc e).value.Settled sc
  | .const c i, _, _, _ => by
      simp only [expr, Report.value_pure, Expr.Settled]
  | .local x i, hk, _, _ => by
      have hx : sc.ctx.Knows x := hk x (by simp [Expr.ids])
      exact ⟨hx, rfl, hlocals x hx⟩
  | .function f i, _, hs, hv => by
      have hvalid := hv _ (Expr.mem_parts_self _)
      simp only [expr, functionTy, Report.findings_bind, List.append_eq_nil_iff] at hs
      simp only [expr, functionTy, Report.value_bind, Report.value_pure, Expr.Settled] at hvalid ⊢
      cases hl : sc.signatures.lookup f with
      | none => simp [hl, reject] at hs
      | some t =>
          rw [hl] at hvalid
          exact ⟨rfl, hvalid⟩
  | .builtin b i, _, hs, _ => by
      cases b with
      | str => exact ⟨rfl, rfl⟩
      | _ => simp [expr, builtinTy, reject] at hs
  | .unary op e i, hk, hs, hv => by
      simp only [expr, Report.findings_bind, List.append_eq_nil_iff] at hs
      simp only [expr, Report.value_bind, Report.value_pure, Expr.parts, List.mem_cons,
        forall_eq_or_imp] at hv
      have he := settled_expr hlocals e hk hs.1 hv.2
      obtain ⟨hty, hval⟩ := unaryTy_silent hs.2.1 he.valid
      simp only [expr, Report.value_bind, Report.value_pure, Expr.Settled]
      exact ⟨he, hty, hval⟩
  | .binary op l r common facts i, hk, hs, hv => by
      simp only [Expr.ids, List.mem_append] at hk
      simp only [expr, Report.findings_bind, List.append_eq_nil_iff] at hs
      simp only [expr, Report.value_bind, Report.value_pure, Expr.parts, List.mem_cons,
        List.mem_append, forall_eq_or_imp] at hv
      have hl := settled_expr hlocals l (fun x hx => hk x (.inl hx)) hs.1
        fun p hp => hv.2 p (.inl hp)
      have hr := settled_expr hlocals r (fun x hx => hk x (.inr hx)) hs.2.1
        fun p hp => hv.2 p (.inr hp)
      have hop := binaryTy_silent hs.2.2.1 hl.valid hr.valid
      have ht := hop.valid hr.valid
      simp only [expr, Report.value_bind, Report.value_pure, Expr.Settled]
      refine ⟨hl, hr, ?_⟩
      by_cases hmap : op = .map
      · rw [if_pos hmap] at hop ⊢
        exact hop
      · rw [if_neg hmap] at hop ⊢
        rwa [operandTy_of_ne_map hmap ht]
  | .call f as i, hk, hs, hv => by
      simp only [Expr.ids, List.mem_append] at hk
      by_cases hprint : ∃ j, f = .builtin .println j
      · -- no type is found for `println` alone, only for its calls
        obtain ⟨j, rfl⟩ := hprint
        simp only [expr, Report.findings_bind, List.append_eq_nil_iff] at hs
        simp only [expr, Report.value_bind, Report.value_pure, Expr.parts, List.mem_cons,
          List.mem_append, forall_eq_or_imp] at hv
        have has := settled_exprs hlocals as (fun x hx => hk x (.inr hx)) hs.1
          fun p hp => hv.2 p (.inr hp)
        obtain ⟨hlen, hval⟩ := printTy_silent hs.2.1
        simp only [expr, Report.value_bind, Report.value_pure, Expr.Settled]
        exact ⟨has, .inl ⟨_, rfl, hlen, rfl, hval⟩⟩
      · have heq : expr sc (.call f as i) = (do
            let as ← exprs sc as
            let f ← expr sc f
            let t ← callTy f as i.span
            pure (.call f as ⟨t, i.span⟩)) := by
          rw [expr]
          exact fun j hj => hprint ⟨j, hj⟩
        rw [heq] at hs hv ⊢
        simp only [Report.findings_bind, List.append_eq_nil_iff] at hs
        simp only [Report.value_bind, Report.value_pure, Expr.parts, List.mem_cons,
          List.mem_append, forall_eq_or_imp] at hv
        have has := settled_exprs hlocals as (fun x hx => hk x (.inr hx)) hs.1
          fun p hp => hv.2 p (.inr hp)
        have hf := settled_expr hlocals f (fun x hx => hk x (.inl hx)) hs.2.1
          fun p hp => hv.2 p (.inl hp)
        simp only [Report.value_bind, Report.value_pure, Expr.Settled]
        exact ⟨has, .inr ⟨hf, callTy_silent hs.2.2.1 hf.valid
          fun a ha => ((Expr.settledList_iff _).1 has a ha).valid⟩⟩
  | .index s p b i, hk, hs, hv => by
      simp only [Expr.ids, List.mem_append] at hk
      simp only [expr, Report.findings_bind, List.append_eq_nil_iff] at hs
      simp only [expr, Report.value_bind, Report.value_pure, Expr.parts, List.mem_cons,
        List.mem_append, forall_eq_or_imp] at hv
      have hst := settled_expr hlocals s (fun x hx => hk x (.inl hx)) hs.1
        fun q hq => hv.2 q (.inl hq)
      have hpt := settled_expr hlocals p (fun x hx => hk x (.inr hx)) hs.2.1
        fun q hq => hv.2 q (.inr hq)
      simp only [expr, Report.value_bind, Report.value_pure, Expr.Settled]
      exact ⟨hst, hpt, indexTy_silent hs.2.2.1 hst.valid hpt.valid⟩
  | .len e i, hk, hs, hv => by
      simp only [expr, Report.findings_bind, List.append_eq_nil_iff] at hs
      simp only [expr, Report.value_bind, Report.value_pure, Expr.parts, List.mem_cons,
        forall_eq_or_imp] at hv
      have he := settled_expr hlocals e hk hs.1 hv.2
      simp only [expr, Report.value_bind, Report.value_pure, Expr.Settled]
      exact ⟨he, lenTy_silent hs.2.1 he.valid⟩
  | .alloc t e s i, hk, hs, hv => by
      simp only [expr, Report.findings_bind, List.append_eq_nil_iff] at hs
      simp only [expr, Report.value_bind, Report.value_pure, Expr.parts, List.mem_cons,
        forall_eq_or_imp] at hv
      have he := settled_expr hlocals e hk hs.1 hv.2
      simp only [expr, Report.value_bind, Report.value_pure, Expr.Settled]
      exact ⟨he, allocTy_silent hs.2.1 he.valid hv.1⟩
  | .slice es s i, hk, hs, hv => by
      simp only [expr, Report.findings_bind, List.append_eq_nil_iff] at hs
      simp only [expr, Report.value_bind, Report.value_pure, Expr.parts, List.mem_cons,
        forall_eq_or_imp] at hv
      have hes := settled_exprs hlocals es hk hs.1 hv.2
      simp only [expr, Report.value_bind, Report.value_pure, Expr.Settled]
      exact ⟨hes, hv.1, sliceTy_silent hs.2.1
        (fun e he => ((Expr.settledList_iff _).1 hes e he).valid) hv.1⟩
  | .closure ps rs cs b i, hk, hs, hv => by
      simp only [Expr.ids, List.mem_append] at hk
      simp only [expr, Report.findings_bind, List.append_eq_nil_iff] at hs
      simp only [expr, Report.value_bind, Report.value_pure, Expr.parts, List.mem_cons,
        forall_eq_or_imp] at hv
      simp only [expr, Report.value_bind, Report.value_pure, Expr.Settled]
      exact ⟨fun x hx => hk x (.inl (.inl hx)), fun x hx => hk x (.inl (.inr hx)),
        settled_block hlocals rs b (fun x hx => hk x (.inr hx)) hs.1 hv.2, trivial, hv.1⟩

theorem settled_exprs (hlocals : ∀ x, sc.ctx.Knows x → (sc.ctx.typeOf x).hasInvalid = false) :
    ∀ es : List Expr, (∀ x ∈ Expr.idsList es, sc.ctx.Knows x) →
    (exprs sc es).findings = [] →
    (∀ p ∈ Expr.partsList (exprs sc es).value, p.ty.hasInvalid = false) →
    Expr.SettledList sc (exprs sc es).value
  | [], _, _, _ => trivial
  | e :: es, hk, hs, hv => by
      simp only [Expr.idsList, List.mem_append] at hk
      simp only [exprs, Report.findings_bind, List.append_eq_nil_iff] at hs
      simp only [exprs, Report.value_bind, Report.value_pure, Expr.partsList, List.mem_append] at hv
      exact ⟨settled_expr hlocals e (fun x hx => hk x (.inl hx)) hs.1 fun p hp => hv p (.inl hp),
        settled_exprs hlocals es (fun x hx => hk x (.inr hx)) hs.2.1 fun p hp => hv p (.inr hp)⟩

theorem settled_stmt (hlocals : ∀ x, sc.ctx.Knows x → (sc.ctx.typeOf x).hasInvalid = false)
    (rs : List Ty) : ∀ s : Stmt, (∀ x ∈ s.ids, sc.ctx.Knows x) →
    (stmt sc rs s).findings = [] →
    (∀ p ∈ (stmt sc rs s).value.parts, p.ty.hasInvalid = false) → (stmt sc rs s).value.Settled sc rs
  | .bind x e, hk, hs, hv | .assign x e, hk, hs, hv => by
      simp only [Stmt.ids, List.mem_cons, forall_eq_or_imp] at hk
      simp only [stmt, Report.findings_bind, List.append_eq_nil_iff] at hs
      simp only [stmt, Report.value_bind, Report.value_pure, Stmt.parts] at hv
      have he := settled_expr hlocals e hk.2 hs.1 hv
      simp only [stmt, Report.value_bind, Report.value_pure, Stmt.Settled]
      exact ⟨he, hk.1, bound_silent hs.2.1 (hlocals x hk.1) he.valid⟩
  | .store s p v b, hk, hs, hv => by
      simp only [Stmt.ids, List.mem_append] at hk
      simp only [stmt, Report.findings_bind, List.append_eq_nil_iff] at hs
      simp only [stmt, Report.value_bind, Report.value_pure, Stmt.parts, List.mem_append] at hv
      have hst := settled_expr hlocals s (fun x hx => hk x (.inl (.inl hx))) hs.1
        fun q hq => hv q (.inl (.inl hq))
      have hpt := settled_expr hlocals p (fun x hx => hk x (.inl (.inr hx))) hs.2.1
        fun q hq => hv q (.inl (.inr hq))
      have hvt := settled_expr hlocals v (fun x hx => hk x (.inr hx)) hs.2.2.1
        fun q hq => hv q (.inr hq)
      simp only [stmt, Report.value_bind, Report.value_pure, Stmt.Settled]
      exact ⟨hst, hpt, hvt, store_silent hs.2.2.2.1 hst.valid hpt.valid hvt.valid⟩
  | .expr e, hk, hs, hv => by
      simp only [stmt, Report.findings_bind, List.append_eq_nil_iff] at hs
      simp only [stmt, Report.value_bind, Report.value_pure, Stmt.parts] at hv
      exact settled_expr hlocals e hk hs.1 hv
  | .return es, hk, hs, hv => by
      simp only [stmt, Report.findings_bind, List.append_eq_nil_iff] at hs
      simp only [stmt, Report.value_bind, Report.value_pure, Stmt.parts] at hv
      have hes := settled_exprs hlocals es hk hs.1 hv
      simp only [stmt, Report.value_bind, Report.value_pure, Stmt.Settled]
      exact ⟨hes, return_silent hs.2.1 fun e he => ((Expr.settledList_iff _).1 hes e he).valid⟩
  | .if c t e, hk, hs, hv => by
      simp only [Stmt.ids, List.mem_append] at hk
      simp only [stmt, Report.findings_bind, List.append_eq_nil_iff] at hs
      simp only [stmt, Report.value_bind, Report.value_pure, Stmt.parts, List.mem_append] at hv
      have hc := settled_expr hlocals c (fun x hx => hk x (.inl (.inl hx))) hs.1
        fun q hq => hv q (.inl (.inl hq))
      simp only [stmt, Report.value_bind, Report.value_pure, Stmt.Settled]
      exact ⟨hc, condition_silent hs.2.1 hc.valid,
        settled_block hlocals rs t (fun x hx => hk x (.inl (.inr hx))) hs.2.2.1
          fun q hq => hv q (.inl (.inr hq)),
        settled_block hlocals rs e (fun x hx => hk x (.inr hx)) hs.2.2.2.1
          fun q hq => hv q (.inr hq)⟩
  | .while c b, hk, hs, hv => by
      simp only [Stmt.ids, List.mem_append] at hk
      simp only [stmt, Report.findings_bind, List.append_eq_nil_iff] at hs
      simp only [stmt, Report.value_bind, Report.value_pure, Stmt.parts, List.mem_append] at hv
      have hc := settled_expr hlocals c (fun x hx => hk x (.inl hx)) hs.1 fun q hq => hv q (.inl hq)
      simp only [stmt, Report.value_bind, Report.value_pure, Stmt.Settled]
      exact ⟨hc, condition_silent hs.2.1 hc.valid,
        settled_block hlocals rs b (fun x hx => hk x (.inr hx)) hs.2.2.1 fun q hq => hv q (.inr hq)⟩
  | .break, _, _, _ => trivial
  | .for x a z b, hk, hs, hv => by
      simp only [Stmt.ids, List.mem_cons, List.mem_append, forall_eq_or_imp] at hk
      simp only [stmt, Report.findings_bind, List.append_eq_nil_iff] at hs
      simp only [stmt, Report.value_bind, Report.value_pure, Stmt.parts, List.mem_append] at hv
      obtain ⟨hx, hk⟩ := hk
      have ha := settled_expr hlocals a (fun y hy => hk y (.inl (.inl hy))) hs.1
        fun q hq => hv q (.inl (.inl hq))
      have hz := settled_expr hlocals z (fun y hy => hk y (.inl (.inr hy))) hs.2.1
        fun q hq => hv q (.inl (.inr hq))
      obtain ⟨hat, hzt, hxt⟩ := range_silent hs.2.2.1 ha.valid hz.valid (hlocals x hx)
      simp only [stmt, Report.value_bind, Report.value_pure, Stmt.Settled]
      exact ⟨ha, hz, hat, hzt, hx, hxt,
        settled_block hlocals rs b (fun y hy => hk y (.inr hy)) hs.2.2.2.1
          fun q hq => hv q (.inr hq)⟩

theorem settled_block (hlocals : ∀ x, sc.ctx.Knows x → (sc.ctx.typeOf x).hasInvalid = false)
    (rs : List Ty) : ∀ ss : List Stmt, (∀ x ∈ Stmt.idsList ss, sc.ctx.Knows x) →
    (block sc rs ss).findings = [] →
    (∀ p ∈ Stmt.partsList (block sc rs ss).value, p.ty.hasInvalid = false) →
    Stmt.SettledBlock sc rs (block sc rs ss).value
  | [], _, _, _ => trivial
  | s :: ss, hk, hs, hv => by
      simp only [Stmt.idsList, List.mem_append] at hk
      simp only [block, Report.findings_bind, List.append_eq_nil_iff] at hs
      simp only [block, Report.value_bind, Report.value_pure, Stmt.partsList, List.mem_append] at hv
      exact ⟨settled_stmt hlocals rs s (fun x hx => hk x (.inl hx)) hs.1 fun p hp => hv p (.inl hp),
        settled_block hlocals rs ss (fun x hx => hk x (.inr hx)) hs.2.1 fun p hp => hv p (.inr hp)⟩

end

end Walk

end Validate

/-! ## Modules -/

/-- Every local that occurs in a function is in its table. -/
def Function.LocalsKnown (f : Function) : Prop :=
  (∀ x ∈ f.params, f.ctx.Knows x) ∧ ∀ x ∈ Stmt.idsList f.body, f.ctx.Knows x

/-- No type of a function is invalid: neither that of a local, nor its signature or its results, nor
that of an expression. -/
structure Function.TypesValid (f : Function) : Prop where
  locals : ∀ x, f.ctx.Knows x → (f.ctx.typeOf x).hasInvalid = false
  signature : f.signature.hasInvalid = false
  results : Ty.anyInvalid f.results = false
  exprs : ∀ e ∈ f.parts, e.ty.hasInvalid = false

/-- The functions that validation gives, one by one. -/
theorem Module.functions_validate (m : Module) :
    m.validate.value.functions
      = m.functions.map fun f => (f.validate (Validate.signatures m)).value := by
  simp only [Module.validate, Report.value_bind, Report.value_pure, Check.value_mapM]

/-- What validation finds, function by function. -/
theorem Module.findings_validate (m : Module) :
    m.validate.findings
      = m.functions.flatMap fun f => (f.validate (Validate.signatures m)).findings := by
  simp only [Module.validate, Report.findings_bind, Report.findings_pure, List.append_nil,
    Check.findings_mapM]

/-- Validation does not touch the signatures. -/
theorem Module.signatures_validate (m : Module) :
    Validate.signatures m.validate.value = Validate.signatures m := by
  simp only [Validate.signatures, Module.functions_validate, List.map_map]
  rfl

/-- **What comes out of a silent validation without an invalid type is settled.** -/
theorem Module.settled_validate {m : Module} (hknown : ∀ f ∈ m.functions, f.LocalsKnown)
    (hsilent : m.validate.findings = [])
    (hvalid : ∀ f ∈ m.validate.value.functions, f.TypesValid) : m.validate.value.Settled := by
  rw [Module.findings_validate, List.flatMap_eq_nil_iff] at hsilent
  intro g hg
  rw [Module.signatures_validate]
  have hgv := hvalid g hg
  rw [Module.functions_validate] at hg
  obtain ⟨f, hf, rfl⟩ := List.mem_map.1 hg
  have hfs : (Validate.block ⟨f.ctx, Validate.signatures m⟩ f.results f.body).findings = [] := by
    have := hsilent f hf
    simpa [Function.validate] using this
  exact ⟨(hknown f hf).1,
    Validate.settled_block hgv.locals f.results f.body (hknown f hf).2 hfs hgv.exprs⟩

end Rivulet.Ir
