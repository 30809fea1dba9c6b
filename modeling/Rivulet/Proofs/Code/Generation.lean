import Rivulet.Proofs.Code.GenerationSteps

set_option autoImplicit false

/-! # Well-typed trees become well-typed code

Code can be made of every well-typed tree whose captures are in scope, and the code is well typed. A
local that is declared later must not spoil what was said about the code before it, so the walk
shows more than that: an expression is well typed in every context that extends the one at its
end. -/

namespace Rivulet.Ir

open Validate (Scene)
open Typed (Functions)

/-! ## The walk -/

/-- The signatures of the code are the counterparts of those of the program. -/
def SignaturesAgree (fs : Functions) (sigs : Validate.Signatures) : Prop :=
  ∀ f sig, fs.lookup f = some sig →
    sigs.lookup f = some (.func (Ty.counterparts sig.params) (Ty.counterparts sig.results))

/-- The code of an expression of type `t`: it has the counterpart of that type, and it is well typed
in every context that extends the one at its end. -/
structure Made (sigs : Validate.Signatures) (scope : Scope) (alive : List String)
    (ctx ctx' : Context) (t : Rivulet.Ty) (e : Expr) : Prop where
  le : ctx.Le ctx'
  tidy : ctx'.Tidy
  ty : e.ty = Ty.counterpart t
  wellTyped : ∀ {ctxF live}, ctx'.Le ctxF → Lives scope alive live →
    e.WellTyped ⟨ctxF, sigs⟩ live

/-- The code of several expressions. -/
structure MadeList (sigs : Validate.Signatures) (scope : Scope) (alive : List String)
    (ctx ctx' : Context) (ts : List Rivulet.Ty) (es : List Expr) : Prop where
  le : ctx.Le ctx'
  tidy : ctx'.Tidy
  ty : es.map Expr.ty = Ty.counterparts ts
  wellTyped : ∀ {ctxF live}, ctx'.Le ctxF → Lives scope alive live →
    Expr.WellTypedList ⟨ctxF, sigs⟩ live es

/-- The code of a block. -/
structure MadeBlock (sigs : Validate.Signatures) (rs : List Rivulet.Ty) (scope : Scope)
    (alive : List String) (ctx ctx' : Context) (ss : List Typed.Stmt) (b : List Stmt) : Prop where
  le : ctx.Le ctx'
  tidy : ctx'.Tidy
  returns : Stmt.anyReturns b = Typed.Stmt.anyReturns ss
  wellTyped : ∀ {ctxF live}, ctx'.Le ctxF → Lives scope alive live →
    Stmt.WellTypedBlock ⟨ctxF, sigs⟩ (Ty.counterparts rs) live b

/-- The code of a statement, with the scope behind it. -/
structure MadeStmt (sigs : Validate.Signatures) (rs : List Rivulet.Ty) (scope : Scope)
    (sc : Typed.Scope) (alive : List String) (ctx ctx' : Context) (s : Typed.Stmt) (c : Stmt)
    (scope' : Scope) : Prop where
  le : ctx.Le ctx'
  tidy : ctx'.Tidy
  agrees : Agrees ctx' scope' (s.declared ++ sc)
  returns : c.returns = s.returns
  wellTyped : ∀ {ctxF live}, ctx'.Le ctxF → Lives scope alive live →
    c.WellTyped ⟨ctxF, sigs⟩ (Ty.counterparts rs) live
  lives : ∀ {live}, Lives scope alive live →
    Lives scope' (s.declared.map Prod.fst ++ alive) (c.binds ++ live)

/-- A literal becomes the constant of its value. -/
theorem Make.makes_literal {sigs : Validate.Signatures} {scope : Scope} {alive : List String}
    {ctx : Context} (hctx : ctx.Tidy) {i : Typed.Info} (hproper : i.ty.proper = true) {c : Const}
    (h : Ty.counterpart i.ty = Validate.constTy c) :
    ∃ e ctx', Makes (do let t ← Ty.ofTy i.ty i.span; pure (Expr.const c ⟨t, i.span⟩)) ctx e ctx' ∧
      Made sigs scope alive ctx ctx' i.ty e :=
  ⟨_, ctx, (Makes.lift (Ty.ofTy_of_proper hproper i.span) ctx).bind (Makes.pure _ _), .refl ctx,
    hctx, rfl, fun _ _ => h⟩

/-- A call is made of its callee and its arguments, unless it is one of `len` with one argument. -/
theorem Make.expr_call (scope : Scope) {f : Typed.Expr} {as : List Typed.Expr} (i : Typed.Info)
    (h : ∀ j a, f = .builtin .len j → as ≠ [a]) :
    Make.expr scope (.call f as i) = (do
      let t ← Ty.ofTy i.ty i.span
      let f ← Make.expr scope f
      let as ← Make.exprs scope as
      pure (.call f as ⟨t, i.span⟩)) := by
  cases f with
  | builtin b j =>
      cases b with
      | len =>
          rcases as with _ | ⟨a, _ | ⟨b, as⟩⟩
          · rfl
          · exact absurd rfl (h j a rfl)
          · rfl
      | _ => rfl
  | _ => rfl

/-- The code of a call: of `len` with one argument, or of any other callable. -/
theorem Make.expr_call_cases (scope : Scope) (f : Typed.Expr) (as : List Typed.Expr)
    (i : Typed.Info) :
    (∃ j a, f = .builtin .len j ∧ as = [a]) ∨
      Make.expr scope (.call f as i) = (do
        let t ← Ty.ofTy i.ty i.span
        let f ← Make.expr scope f
        let as ← Make.exprs scope as
        pure (.call f as ⟨t, i.span⟩)) := by
  by_cases h : ∃ j a, f = .builtin .len j ∧ as = [a]
  · exact .inl h
  · exact .inr (Make.expr_call scope i fun j a hf has => h ⟨j, a, hf, has⟩)

theorem Make.exprs_singleton_inv {scope : Scope} {a : Typed.Expr} {es : List Expr}
    {ctx ctx' : Context} (h : Makes (Make.exprs scope [a]) ctx es ctx') :
    ∃ e, es = [e] ∧ Makes (Make.expr scope a) ctx e ctx' := by
  obtain ⟨e, ctx₁, he, hrest⟩ := h.bind_inv
  obtain ⟨es', ctx₂, hes, hend⟩ := hrest.bind_inv
  obtain ⟨rfl, rfl⟩ := Makes.pure_inv (c := []) hes
  obtain ⟨rfl, rfl⟩ := hend.pure_inv
  exact ⟨e, rfl, he⟩

/-- The common type of the operands of an accepted operator. -/
theorem Make.makes_operandType {op : BinaryOp} {l r : Expr} {lt rt t : Rivulet.Ty}
    (hl : l.ty = Ty.counterpart lt) (hr : r.ty = Ty.counterpart rt)
    (h : Typed.OperatorTy op lt rt t) (span : Span) (ctx : Context) :
    ∃ common, Makes (Make.operandType op l r span) ctx common ctx ∧
      OperatorTy op l.ty r.ty common (Ty.counterpart t) := by
  unfold Make.operandType
  rcases h with ⟨hrule, e, u, rfl, rfl, rfl⟩ | ⟨hrule, rfl, hh⟩
  · refine ⟨none, ?_, Or.inl ⟨?_, rfl, Ty.counterpart e, Ty.counterpart u, hl, hr, rfl⟩⟩
    · rw [if_neg (by simp [OperandRule.isHomogeneous, hrule])]
      exact Makes.pure _ _
    · revert hrule
      cases op <;> simp [BinaryOp.rule]
  · have hne : op ≠ .map := by
      rintro rfl
      exact hrule rfl
    refine ⟨some l.ty, ?_, Or.inr ⟨hne, rfl, by rw [hl, hr], ?_⟩⟩
    · rw [if_pos (by simp [OperandRule.isHomogeneous, hrule])]
      simp only [hl, hr, Typing.commonType?, if_true]
      exact Makes.pure _ _
    · rw [hl, Ty.homogeneous?_counterpart, hh]
      rfl

/-- Returned values stand for the counterparts of the results. -/
theorem returned_counterparts {rs : List Rivulet.Ty} {es : List Typed.Expr} {es' : List Expr}
    (hty : es'.map Expr.ty = Ty.counterparts (es.map Typed.Expr.ty))
    (h : Check.returned rs es = rs) :
    Validate.returned (Ty.counterparts rs) es' = Ty.counterparts rs := by
  rw [Ty.counterparts_eq_map, List.map_map] at hty
  have hlen : es'.length = es.length := by simpa using congrArg List.length hty
  have hrs : (Ty.counterparts rs).length = rs.length := by simp [Ty.counterparts_eq_map]
  match es, es', hlen, hty, h with
  | [], [], _, _, h => rw [← h]; rfl
  | [e], [e'], _, hty, h =>
      simp only [List.map_cons, List.map_nil, List.cons.injEq, and_true,
        Function.comp_apply] at hty
      simp only [Validate.returned, Check.returned, hrs, hty] at h ⊢
      split
      · rename_i hlt
        rw [if_pos hlt] at h
        rw [Ty.toResults_counterpart, h]
      · rename_i hlt
        rw [if_neg hlt] at h
        rw [← h]
        rfl
  | e :: f :: es, e' :: f' :: es', _, hty, h =>
      rw [← h]
      simp only [Validate.returned, Check.returned, hty, Ty.counterparts_eq_map, List.map_map]

theorem mem_of_forall₂_right {α β : Type} {R : α → β → Prop} {as : List α} {bs : List β}
    (h : List.Forall₂ R as bs) {b : β} (hb : b ∈ bs) : ∃ a ∈ as, R a b := by
  induction h with
  | nil => cases hb
  | cons hab _ ih =>
      rcases List.mem_cons.1 hb with rfl | hb
      · exact ⟨_, List.mem_cons_self, hab⟩
      · obtain ⟨a, ha, hr⟩ := ih hb
        exact ⟨a, List.mem_cons_of_mem _ ha, hr⟩

/-! ### Sequences, calls and closures

What the generator does about them once the code of their parts is made. -/

section Forms

variable {sigs : Validate.Signatures} {scope : Scope} {alive : List String}
  {ctx ctx₁ ctx₂ : Context} {es : List Typed.Expr} {es' : List Expr} {i : Typed.Info}

/-- A sequence of elements of one type gets a site of its own. -/
theorem MadeList.seq {t : Rivulet.Ty} (hmes : Makes (Make.exprs scope es) ctx es' ctx₁)
    (hes : MadeList sigs scope alive ctx ctx₁ (es.map Typed.Expr.ty) es')
    (hproper : i.ty.proper = true) (hi : i.ty = .seq t) (hall : ∀ e ∈ es, e.ty = t) :
    ∃ e ctx', Makes (Make.expr scope (.seq es i)) ctx e ctx' ∧
      Made sigs scope alive ctx ctx' i.ty e := by
  refine ⟨_, ctx₁.freshSite.2, (Makes.lift (Ty.ofTy_of_proper hproper i.span) ctx).bind
    (hmes.bind ((Make.makes_freshSite ctx₁).bind (Makes.pure _ _))),
    hes.le.trans ctx₁.le_freshSite, hes.tidy.freshSite, rfl, fun hle hlives => ?_⟩
  refine ⟨hes.wellTyped (ctx₁.le_freshSite.trans hle) hlives, ?_, Ty.counterpart t, ?_, ?_⟩
  · exact Ty.hasInvalid_counterpart_of_proper hproper
  · rw [hi]
    rfl
  · intro e' he'
    have hmem : e'.ty ∈ es'.map Expr.ty := List.mem_map_of_mem he'
    rw [hes.ty, Ty.counterparts_eq_map, List.map_map] at hmem
    obtain ⟨e, he, heq⟩ := List.mem_map.1 hmem
    rw [← heq, Function.comp_apply, hall e he]

/-- The length of a sequence is an expression of its own in the code. -/
theorem MadeList.len {a : Typed.Expr} {t : Rivulet.Ty} (j : Typed.Info)
    (hmas : Makes (Make.exprs scope [a]) ctx es' ctx₁)
    (has : MadeList sigs scope alive ctx ctx₁ [a.ty] es') (hproper : i.ty.proper = true)
    (hat : a.ty = .seq t) (hi : i.ty = .int) :
    ∃ e ctx', Makes (Make.expr scope (.call (.builtin .len j) [a] i)) ctx e ctx' ∧
      Made sigs scope alive ctx ctx' i.ty e := by
  obtain ⟨a', rfl, hma⟩ := Make.exprs_singleton_inv hmas
  refine ⟨_, ctx₁, (Makes.lift (Ty.ofTy_of_proper hproper i.span) ctx).bind
    (hma.bind (Makes.pure _ _)), has.le, has.tidy, rfl, fun hle hlives => ?_⟩
  refine ⟨(has.wellTyped hle hlives).1, ⟨Ty.counterpart t, ?_⟩, by rw [hi]; rfl⟩
  have hty := has.ty
  simp only [List.map_cons, List.map_nil, Ty.counterparts, List.cons.injEq, and_true, hat] at hty
  rw [hty]
  rfl

/-- A call of `println`, whose type is that of its argument. -/
theorem MadeList.println {j : Typed.Info} (hmas : Makes (Make.exprs scope es) ctx es' ctx₁)
    (has : MadeList sigs scope alive ctx ctx₁ (es.map Typed.Expr.ty) es')
    (hproper : ∀ e ∈ es, e.ty.proper = true) (hone : es.length = 1)
    (hj : j.ty = .func (es.map Typed.Expr.ty) []) (hi : i.ty = .unit) :
    ∃ e ctx', Makes (Make.expr scope (.call (.builtin .println j) es i)) ctx e ctx' ∧
      Made sigs scope alive ctx ctx' i.ty e := by
  have hjp : j.ty.proper = true := by
    have hall : Rivulet.Ty.allProper (es.map Typed.Expr.ty) = true := by
      rw [Rivulet.Ty.allProper_iff, List.forall_mem_map]
      exact hproper
    simp only [hj, Rivulet.Ty.proper, hall, Rivulet.Ty.allSimple, Bool.and_self]
  have hip : i.ty.proper = true := by
    rw [hi]
    rfl
  have hmf : Makes (Make.expr scope (.builtin .println j)) ctx
      (.builtin .println ⟨Ty.counterpart j.ty, j.span⟩) ctx :=
    (Makes.lift (Ty.ofTy_of_proper hjp j.span) ctx).bind (Makes.pure _ _)
  refine ⟨.call (.builtin .println ⟨Ty.counterpart j.ty, j.span⟩) es'
    ⟨Ty.counterpart i.ty, i.span⟩, ctx₁, ?_, has.le, has.tidy, rfl, fun hle hlives => ?_⟩
  · rw [Make.expr_call scope i (by simp)]
    exact (Makes.lift (Ty.ofTy_of_proper hip i.span) ctx).bind
      (hmf.bind (hmas.bind (Makes.pure _ _)))
  · refine ⟨has.wellTyped hle hlives, Or.inl ⟨_, rfl, ?_, ?_, ?_⟩⟩
    · have hlen := congrArg List.length has.ty
      simpa [Ty.counterparts_eq_map, hone] using hlen
    · rw [has.ty, hj]
      rfl
    · rw [hi]
      rfl

/-- A call of a value. -/
theorem Made.call {f : Typed.Expr} {f' : Expr} {rs : List Rivulet.Ty}
    (hne : ∀ j, f ≠ .builtin .len j) (hmf : Makes (Make.expr scope f) ctx f' ctx₁)
    (hf : Made sigs scope alive ctx ctx₁ f.ty f')
    (hmas : Makes (Make.exprs scope es) ctx₁ es' ctx₂)
    (has : MadeList sigs scope alive ctx₁ ctx₂ (es.map Typed.Expr.ty) es')
    (hproper : i.ty.proper = true) (hfty : f.ty = .func (es.map Typed.Expr.ty) rs)
    (hi : i.ty = .ofResults rs) :
    ∃ e ctx', Makes (Make.expr scope (.call f es i)) ctx e ctx' ∧
      Made sigs scope alive ctx ctx' i.ty e := by
  refine ⟨.call f' es' ⟨Ty.counterpart i.ty, i.span⟩, ctx₂, ?_, hf.le.trans has.le, has.tidy, rfl,
    fun hle hlives => ?_⟩
  · rw [Make.expr_call scope i fun j _ hj => absurd hj (hne j)]
    exact (Makes.lift (Ty.ofTy_of_proper hproper i.span) ctx).bind
      (hmf.bind (hmas.bind (Makes.pure _ _)))
  · refine ⟨has.wellTyped hle hlives, Or.inr ⟨hf.wellTyped (has.le.trans hle) hlives,
      Ty.counterparts rs, ?_, ?_⟩⟩
    · rw [hf.ty, hfty, has.ty]
      rfl
    · rw [hi, Ty.counterpart_ofResults]

/-- A closure: its parameters have become the locals `xs`, and its captures have been found to mean the
locals `ys`. -/
theorem MadeBlock.closure {sc : Typed.Scope} {ps : List Typed.Param} {rs : List Rivulet.Ty}
    {b : List Typed.Stmt} {cs : List String} {xs ys : List LocalId} {scope' : Scope}
    {b' : List Stmt} (hag : Agrees ctx scope sc) (hrs : Rivulet.Ty.allSimple rs = true)
    (hcs : ∀ x ∈ cs, x ∈ sc.names → x ∈ alive)
    (hmcs : Makes (cs.mapM fun x => Make.lookup scope x i.span) ctx ys ctx)
    (hall : List.Forall₂ (fun x y => scope.lookup x = some y) cs ys)
    (hmps : Makes (Make.params scope ps) ctx (xs, scope') ctx₁) (hle₁ : ctx.Le ctx₁)
    (hscope : scope' = ((ps.map Typed.Param.name).zip xs).reverse ++ scope)
    (hknown : ∀ x ∈ xs, ctx₁.Knows x)
    (htypes : xs.map ctx₁.typeOf = Ty.counterparts (ps.map Typed.Param.ty))
    (hlen : xs.length = ps.length) (hmb : Makes (Make.block scope' b) ctx₁ b' ctx₂)
    (hb : MadeBlock sigs rs scope' (ps.map Typed.Param.name ++ cs) ctx₁ ctx₂ b b')
    (hret : rs ≠ [] → Typed.Stmt.anyReturns b = true) (hproper : i.ty.proper = true)
    (hi : i.ty = .func (ps.map Typed.Param.ty) rs) :
    ∃ e ctx', Makes (Make.expr scope (.closure ps rs b cs i)) ctx e ctx' ∧
      Made sigs scope alive ctx ctx' i.ty e := by
  have hmrs := Makes.lift
    (Ty.ofTys_of_allProper (Rivulet.Ty.allProper_of_allSimple hrs) i.span) ctx₁
  refine ⟨_, ctx₂, (Makes.lift (Ty.ofTy_of_proper hproper i.span) ctx).bind
    (hmcs.bind (hmps.bind (hmrs.bind (hmb.bind (Makes.pure _ _))))),
    hle₁.trans hb.le, hb.tidy, rfl, fun {ctxF live} hle hlives => ?_⟩
  have hleF := hb.le.trans hle
  refine ⟨fun x hx => hleF.knows (hknown x hx), ?_, ?_, ?_, ?_, ?_⟩
  · -- a captured local is live, since the name that means it is alive
    intro y hy
    obtain ⟨x, hx, hxy⟩ := mem_of_forall₂_right hall hy
    have hscope : x ∈ sc.names := by
      rw [← hag.names]
      exact mem_of_lookup hxy
    exact hlives x (hcs x hx hscope) y hxy
  · rw [Ty.anyInvalid_counterparts]
    exact Rivulet.Ty.anyPoison_of_allSimple rs hrs
  · refine hb.wellTyped hle ?_
    rw [hscope]
    exact Lives.closure (by simpa using hlen) hall
  · intro hne
    rw [hb.returns]
    refine hret fun hnil => hne ?_
    rw [hnil]
    rfl
  · -- the contexts behind that of the parameters keep their types
    have htypesF : xs.map ctxF.typeOf = xs.map ctx₁.typeOf :=
      List.map_congr_left fun x hx => hleF.typeOf (hknown x hx)
    rw [htypesF, htypes, hi]
    rfl

end Forms

/-! ### All expressions and statements -/

section Walk

variable {fs : Functions} {sigs : Validate.Signatures}

mutual

/-- **Code can be made of a well-typed expression whose captures are in scope**, and it is well
typed. -/
theorem Make.makes_expr (hfs : fs.Proper) (hsigs : SignaturesAgree fs sigs) :
    ∀ {e : Typed.Expr} {ctx : Context} {scope : Scope} {sc : Typed.Scope} {alive : List String},
      ctx.Tidy → sc.Proper → Agrees ctx scope sc → e.WellTyped fs sc alive →
      e.CapturesIn (scope.map Prod.fst) →
      ∃ e' ctx', Makes (Make.expr scope e) ctx e' ctx' ∧ Made sigs scope alive ctx ctx' e.ty e'
  | .int _ _, ctx, scope, sc, alive, hctx, hsc, _, h, _
  | .bool _ _, ctx, scope, sc, alive, hctx, hsc, _, h, _
  | .str _ _, ctx, scope, sc, alive, hctx, hsc, _, h, _ =>
      Make.makes_literal hctx (h.proper hfs hsc) (congrArg Ty.counterpart h)
  | .local x i, ctx, scope, sc, alive, hctx, hsc, hag, h, _ => by
      obtain ⟨y, hy, hknows, hty⟩ := hag.lookup h.2
      refine ⟨_, ctx, (Makes.lift (Ty.ofTy_of_proper (h.proper hfs hsc) i.span) ctx).bind
        ((Make.makes_lookup hy i.span ctx).bind (Makes.pure _ _)), .refl ctx, hctx, rfl, ?_⟩
      intro ctxF live hle hlives
      exact ⟨hlives x h.1 y hy, by rw [hle.typeOf hknows, hty]; rfl⟩
  | .function f i, ctx, scope, sc, alive, hctx, hsc, hag, h, _ => by
      refine ⟨_, ctx, (Makes.lift (Ty.ofTy_of_proper (h.proper hfs hsc) i.span) ctx).bind
        (Makes.pure _ _), .refl ctx, hctx, rfl, fun _ _ => ?_⟩
      obtain ⟨sig, hf, hi⟩ := h
      simp only [Expr.WellTyped, Typed.Expr.ty, Typed.Expr.info, hi]
      exact hsigs f sig hf
  | .builtin b i, ctx, scope, sc, alive, hctx, hsc, hag, h, _ => by
      refine ⟨_, ctx, (Makes.lift (Ty.ofTy_of_proper (h.proper hfs hsc) i.span) ctx).bind
        (Makes.pure _ _), .refl ctx, hctx, rfl, fun _ _ => ?_⟩
      simp only [Expr.WellTyped, Typed.Expr.ty, Typed.Expr.info, h.2]
      exact ⟨h.1, rfl⟩
  | .unary op e i, ctx, scope, sc, alive, hctx, hsc, hag, h, hcap => by
      obtain ⟨e', ctx₁, hmake, hmade⟩ := Make.makes_expr hfs hsigs hctx hsc hag h.1 hcap
      refine ⟨_, ctx₁, (Makes.lift (Ty.ofTy_of_proper (h.proper hfs hsc) i.span) ctx).bind
        (hmake.bind (Makes.pure _ _)), hmade.le, hmade.tidy, rfl, fun hle hlives => ?_⟩
      have hop : Ty.counterpart (Check.unaryType op) = Validate.unaryOperandTy op := by
        cases op <;> rfl
      refine ⟨hmade.wellTyped hle hlives, by rw [hmade.ty, h.2.1, hop], ?_⟩
      simp only [Typed.Expr.ty, Typed.Expr.info, h.2.2, hop]
  | .binary op l r i, ctx, scope, sc, alive, hctx, hsc, hag, h, hcap => by
      obtain ⟨l', ctx₁, hml, hl⟩ := Make.makes_expr hfs hsigs hctx hsc hag h.1 hcap.1
      obtain ⟨r', ctx₂, hmr, hr⟩ :=
        Make.makes_expr hfs hsigs hl.tidy hsc (hag.mono hl.le) h.2.1 hcap.2
      obtain ⟨common, hmc, hop⟩ := Make.makes_operandType hl.ty hr.ty h.2.2 i.span ctx₂
      refine ⟨_, ctx₂, (Makes.lift (Ty.ofTy_of_proper (h.proper hfs hsc) i.span) ctx).bind
        (hml.bind (hmr.bind (hmc.bind (Makes.pure _ _)))), hl.le.trans hr.le, hr.tidy, rfl,
        fun hle hlives => ?_⟩
      exact ⟨hl.wellTyped (hr.le.trans hle) hlives, hr.wellTyped hle hlives, hop⟩
  | .seq es i, ctx, scope, sc, alive, hctx, hsc, hag, h, hcap => by
      have hproper := h.proper hfs hsc
      obtain ⟨hwt, t, -, hi, hall⟩ := h
      obtain ⟨es', ctx₁, hmes, hes⟩ := Make.makes_exprs hfs hsigs hctx hsc hag hwt hcap
      exact hes.seq hmes hproper hi hall
  | .index e p i, ctx, scope, sc, alive, hctx, hsc, hag, h, hcap => by
      obtain ⟨e', ctx₁, hme, he⟩ := Make.makes_expr hfs hsigs hctx hsc hag h.1 hcap.1
      obtain ⟨p', ctx₂, hmp, hp⟩ :=
        Make.makes_expr hfs hsigs he.tidy hsc (hag.mono he.le) h.2.1 hcap.2
      refine ⟨_, ctx₂, (Makes.lift (Ty.ofTy_of_proper (h.proper hfs hsc) i.span) ctx).bind
        (hme.bind (hmp.bind (Makes.pure _ _))), he.le.trans hp.le, hp.tidy, rfl,
        fun hle hlives => ?_⟩
      refine ⟨he.wellTyped (hp.le.trans hle) hlives, hp.wellTyped hle hlives, rfl, ?_, ?_⟩
      · rw [he.ty, h.2.2.1]
        rfl
      · rw [hp.ty, h.2.2.2]
        rfl
  | .call f as i, ctx, scope, sc, alive, hctx, hsc, hag, h, hcap => by
      have hproper := h.proper hfs hsc
      obtain ⟨has, hcase⟩ := h
      rcases hcase with ⟨j, a, t, hf, hone, hat, hi⟩ | ⟨j, hf, hone, hj, hi⟩ | ⟨hf, rs, hfty, hi⟩
      · obtain ⟨as', ctx₁, hmas, has'⟩ := Make.makes_exprs hfs hsigs hctx hsc hag has hcap.2
        subst hf hone
        exact has'.len j hmas hproper hat hi
      · obtain ⟨as', ctx₁, hmas, has'⟩ := Make.makes_exprs hfs hsigs hctx hsc hag has hcap.2
        subst hf
        have hasp : ∀ a ∈ as, a.ty.proper = true := fun a ha =>
          ((Typed.Expr.wellTypedList_iff as).1 has a ha).proper hfs hsc
        exact has'.println hmas hasp hone hj hi
      · -- as a value, `len` is not well typed
        have hne : ∀ j, f ≠ .builtin .len j := by
          rintro j rfl
          cases hf.1
        obtain ⟨f', ctx₁, hmf, hf'⟩ := Make.makes_expr hfs hsigs hctx hsc hag hf hcap.1
        obtain ⟨as', ctx₂, hmas, has'⟩ :=
          Make.makes_exprs hfs hsigs hf'.tidy hsc (hag.mono hf'.le) has hcap.2
        exact hf'.call hne hmf hmas has' hproper hfty hi
  | .closure ps rs b cs i, ctx, scope, sc, alive, hctx, hsc, hag, h, hcap => by
      have hproper := h.proper hfs hsc
      obtain ⟨hps, hrs, hcs, hb, hret, hi⟩ := h
      obtain ⟨ys, hmcs, hall⟩ := Make.makes_captures hcap.1 i.span ctx
      obtain ⟨xs, scope', ctx₁, hmps, hle₁, htidy₁, hag₁, hscope, hknown, htypes, hlen⟩ :=
        Make.makes_params ps hctx hag hps
      have hnames : scope'.map Prod.fst = (ps.map Typed.Param.name).reverse ++ scope.map Prod.fst := by
        rw [hag₁.names, Typed.Scope.names_withParams, hag.names]
      have hcap' : Typed.Stmt.CapturesInBlock (scope'.map Prod.fst) b := by
        rw [hnames]
        exact hcap.2.congr fun x => by simp
      obtain ⟨b', ctx₂, hmb, hb'⟩ :=
        Make.makes_block hfs hsigs htidy₁ (hsc.withParams hps) hag₁ hb hcap'
      exact hb'.closure hag hrs hcs hmcs hall hmps hle₁ hscope hknown htypes hlen hmb hret hproper hi
  | .error i, ctx, scope, sc, alive, _, _, _, h, _ => h.elim

/-- Code can be made of well-typed expressions whose captures are in scope. -/
theorem Make.makes_exprs (hfs : fs.Proper) (hsigs : SignaturesAgree fs sigs) :
    ∀ {es : List Typed.Expr} {ctx : Context} {scope : Scope} {sc : Typed.Scope}
      {alive : List String},
      ctx.Tidy → sc.Proper → Agrees ctx scope sc → Typed.Expr.WellTypedList fs sc alive es →
      Typed.Expr.CapturesInList (scope.map Prod.fst) es →
      ∃ es' ctx', Makes (Make.exprs scope es) ctx es' ctx' ∧
        MadeList sigs scope alive ctx ctx' (es.map Typed.Expr.ty) es'
  | [], ctx, scope, sc, alive, hctx, _, _, _, _ =>
      ⟨[], ctx, Makes.pure _ _, .refl ctx, hctx, rfl, fun _ _ => trivial⟩
  | e :: es, ctx, scope, sc, alive, hctx, hsc, hag, h, hcap => by
      obtain ⟨e', ctx₁, hme, he⟩ := Make.makes_expr hfs hsigs hctx hsc hag h.1 hcap.1
      obtain ⟨es', ctx₂, hmes, hes⟩ :=
        Make.makes_exprs hfs hsigs he.tidy hsc (hag.mono he.le) h.2 hcap.2
      refine ⟨e' :: es', ctx₂, hme.bind (hmes.bind (Makes.pure _ _)), he.le.trans hes.le, hes.tidy,
        ?_, fun hle hlives => ?_⟩
      · rw [List.map_cons, he.ty, hes.ty]
        rfl
      · exact ⟨he.wellTyped (hes.le.trans hle) hlives, hes.wellTyped hle hlives⟩

/-- Code can be made of a well-typed statement whose captures are in scope. -/
theorem Make.makes_stmt (hfs : fs.Proper) (hsigs : SignaturesAgree fs sigs) {rs : List Rivulet.Ty} :
    ∀ {s : Typed.Stmt} {ctx : Context} {scope : Scope} {sc : Typed.Scope} {alive : List String},
      ctx.Tidy → sc.Proper → Agrees ctx scope sc → s.WellTyped fs rs sc alive →
      s.CapturesIn (scope.map Prod.fst) →
      ∃ c scope' ctx', Makes (Make.stmt scope s) ctx (c, scope') ctx' ∧
        MadeStmt sigs rs scope sc alive ctx ctx' s c scope'
  | .declare k x t e s, ctx, scope, sc, alive, hctx, hsc, hag, h, hcap => by
      obtain ⟨e', ctx₁, hme, he⟩ := Make.makes_expr hfs hsigs hctx hsc hag h.1 hcap
      have hp : t.proper = true := by
        rw [← h.2]
        exact h.1.proper hfs hsc
      have hle₁ := ctx₁.le_declare x (Ty.counterpart t)
      have hknows := ctx₁.knows_declare x (Ty.counterpart t)
      have htype := ctx₁.typeOf_declare x (Ty.counterpart t)
      refine ⟨_, _, _, hme.bind ((Makes.lift (Ty.ofTy_of_proper hp s) ctx₁).bind
        ((Make.makes_declare ctx₁ x (Ty.counterpart t)).bind (Makes.pure _ _))),
        he.le.trans hle₁, he.tidy.declare (Ty.hasInvalid_counterpart_of_proper hp),
        ((hag.mono he.le).mono hle₁).cons hknows htype, rfl, fun hle hlives => ?_,
        fun hlives => hlives.cons x _⟩
      refine ⟨he.wellTyped (hle₁.trans hle) hlives, hle.knows hknows, ?_⟩
      rw [hle.typeOf hknows, htype, he.ty, h.2]
  | .assign x e s, ctx, scope, sc, alive, hctx, hsc, hag, h, hcap => by
      obtain ⟨y, hy, hknows, hty⟩ := hag.lookup h.2.2
      obtain ⟨e', ctx₁, hme, he⟩ := Make.makes_expr hfs hsigs hctx hsc hag h.1 hcap
      refine ⟨_, _, _, (Make.makes_lookup hy s ctx).bind (hme.bind (Makes.pure _ _)), he.le,
        he.tidy, hag.mono he.le, rfl, fun hle hlives => ?_, id⟩
      refine ⟨he.wellTyped hle hlives, hlives x h.2.1 y hy, ?_⟩
      rw [(he.le.trans hle).typeOf hknows, hty, he.ty]
  | .if c t e s, ctx, scope, sc, alive, hctx, hsc, hag, h, hcap => by
      obtain ⟨c', ctx₁, hmc, hc⟩ := Make.makes_expr hfs hsigs hctx hsc hag h.1 hcap.1
      obtain ⟨t', ctx₂, hmt, ht⟩ :=
        Make.makes_block hfs hsigs hc.tidy hsc (hag.mono hc.le) h.2.2.1 hcap.2.1
      have hle₂ := hc.le.trans ht.le
      obtain ⟨e', ctx₃, hme, he⟩ :=
        Make.makes_block hfs hsigs ht.tidy hsc (hag.mono hle₂) h.2.2.2 hcap.2.2
      refine ⟨_, _, _, hmc.bind (hmt.bind (hme.bind (Makes.pure _ _))), hle₂.trans he.le,
        he.tidy, hag.mono (hle₂.trans he.le), ?_, fun hle hlives => ?_, id⟩
      · simp only [Stmt.returns, Typed.Stmt.returns, ht.returns, he.returns]
      · refine ⟨hc.wellTyped ((ht.le.trans he.le).trans hle) hlives, by rw [hc.ty, h.2.1]; rfl,
          ht.wellTyped (he.le.trans hle) hlives, he.wellTyped hle hlives⟩
  | .while c b s, ctx, scope, sc, alive, hctx, hsc, hag, h, hcap => by
      obtain ⟨c', ctx₁, hmc, hc⟩ := Make.makes_expr hfs hsigs hctx hsc hag h.1 hcap.1
      obtain ⟨b', ctx₂, hmb, hb⟩ :=
        Make.makes_block hfs hsigs hc.tidy hsc (hag.mono hc.le) h.2.2 hcap.2
      refine ⟨_, _, _, hmc.bind (hmb.bind (Makes.pure _ _)), hc.le.trans hb.le, hb.tidy,
        hag.mono (hc.le.trans hb.le), rfl, fun hle hlives => ?_, id⟩
      exact ⟨hc.wellTyped (hb.le.trans hle) hlives, by rw [hc.ty, h.2.1]; rfl,
        hb.wellTyped hle hlives⟩
  | .return es s, ctx, scope, sc, alive, hctx, hsc, hag, h, hcap => by
      obtain ⟨es', ctx₁, hmes, hes⟩ := Make.makes_exprs hfs hsigs hctx hsc hag h.1 hcap
      refine ⟨_, _, _, hmes.bind (Makes.pure _ _), hes.le, hes.tidy, hag.mono hes.le, rfl,
        fun hle hlives => ⟨hes.wellTyped hle hlives, ?_⟩, id⟩
      exact returned_counterparts hes.ty h.2
  | .expr e s, ctx, scope, sc, alive, hctx, hsc, hag, h, hcap => by
      obtain ⟨e', ctx₁, hme, he⟩ := Make.makes_expr hfs hsigs hctx hsc hag h hcap
      exact ⟨_, _, _, hme.bind (Makes.pure _ _), he.le, he.tidy, hag.mono he.le, rfl,
        fun hle hlives => he.wellTyped hle hlives, id⟩

/-- **Code can be made of a well-typed block whose captures are in scope**, and it is well typed. -/
theorem Make.makes_block (hfs : fs.Proper) (hsigs : SignaturesAgree fs sigs)
    {rs : List Rivulet.Ty} :
    ∀ {ss : List Typed.Stmt} {ctx : Context} {scope : Scope} {sc : Typed.Scope}
      {alive : List String},
      ctx.Tidy → sc.Proper → Agrees ctx scope sc → Typed.Stmt.WellTypedBlock fs rs sc alive ss →
      Typed.Stmt.CapturesInBlock (scope.map Prod.fst) ss →
      ∃ b ctx', Makes (Make.block scope ss) ctx b ctx' ∧
        MadeBlock sigs rs scope alive ctx ctx' ss b
  | [], ctx, scope, sc, alive, hctx, _, _, _, _ =>
      ⟨[], ctx, Makes.pure _ _, .refl ctx, hctx, rfl, fun _ _ => trivial⟩
  | s :: ss, ctx, scope, sc, alive, hctx, hsc, hag, h, hcap => by
      obtain ⟨c, scope', ctx₁, hmc, hc⟩ := Make.makes_stmt hfs hsigs hctx hsc hag h.1 hcap.1
      have hsc' : Typed.Scope.Proper (s.declared ++ sc) := h.1.declared_proper hfs hsc
      have hcap' : Typed.Stmt.CapturesInBlock (scope'.map Prod.fst) ss := by
        rw [hc.agrees.names]
        exact hcap.2.congr fun x => by simp [Typed.Scope.names, hag.names]
      obtain ⟨b, ctx₂, hmb, hb⟩ := Make.makes_block hfs hsigs hc.tidy hsc' hc.agrees h.2 hcap'
      refine ⟨c :: b, ctx₂, hmc.bind (hmb.bind (Makes.pure _ _)), hc.le.trans hb.le, hb.tidy, ?_,
        fun hle hlives => ?_⟩
      · simp only [Stmt.anyReturns, Typed.Stmt.anyReturns, hc.returns, hb.returns]
      · exact ⟨hc.wellTyped (hb.le.trans hle) hlives, hb.wellTyped hle (hc.lives hlives)⟩

end

end Walk

end Rivulet.Ir
