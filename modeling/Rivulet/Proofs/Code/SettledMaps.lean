import Rivulet.Proofs.Code.MapFacts
import Rivulet.Proofs.Code.Settled

set_option autoImplicit false

/-! # Facts on the maps of settled code

Giving facts to maps changes nothing that a type depends on, so settled code stays settled; and since
the operands of a settled map have the types of a sequence and of a callable, all maps get ready to be
lowered. -/

namespace Rivulet.Ir

open Validate (Scene)

/-! ## What becomes of expressions -/

/-- What becomes of a settled expression: its type stays, and its maps are ready. -/
structure Expr.SettledAs (sc : Scene) (e e' : Expr) : Prop where
  info : e'.info = e.info
  settled : e'.Settled sc
  ready : e'.MapsReady

/-- What becomes of a list of settled expressions. -/
structure Expr.ListSettledAs (sc : Scene) (es es' : List Expr) : Prop where
  types : es'.map Expr.ty = es.map Expr.ty
  settled : Expr.SettledList sc es'
  ready : Expr.AllMapsReady es'

theorem Expr.SettledAs.ty_eq {sc : Scene} {e e' : Expr} (h : Expr.SettledAs sc e e') :
    e'.ty = e.ty := by
  simp only [Expr.ty, h.info]

theorem Expr.ListSettledAs.length_eq {sc : Scene} {es es' : List Expr}
    (h : Expr.ListSettledAs sc es es') : es'.length = es.length := by
  simpa only [List.length_map] using congrArg List.length h.types

theorem Expr.forall_ty_congr {es es' : List Expr} {t : Ty} (h : es'.map Expr.ty = es.map Expr.ty)
    (hes : ∀ e ∈ es, e.ty = t) : ∀ e ∈ es', e.ty = t := by
  intro e' he'
  have hmem : e'.ty ∈ es.map Expr.ty := h ▸ List.mem_map_of_mem he'
  obtain ⟨e, he, hty⟩ := List.mem_map.1 hmem
  rw [← hty, hes e he]

/-! ## The walk -/

section Walk

variable {sc : Scene} {ctx' : Context}

mutual

theorem Expr.settledAs_withMapFacts (hctx : ctx'.locals = sc.ctx.locals) :
    ∀ {e : Expr}, e.Settled sc →
    SiteM.Gives e.withMapFacts (Expr.SettledAs ⟨ctx', sc.signatures⟩ e)
  | .const c i, h => .pure ⟨rfl, h, trivial⟩
  | .local x i, h => by
      refine .pure ⟨rfl, ?_, trivial⟩
      simp only [Expr.Settled, Context.typeOf_congr hctx, Context.knows_congr hctx] at h ⊢
      exact h
  | .function f i, h => .pure ⟨rfl, h, trivial⟩
  | .builtin b i, h => .pure ⟨rfl, h, trivial⟩
  | .unary op e i, h => by
      simp only [Expr.Settled] at h
      refine .bind (Expr.settledAs_withMapFacts hctx h.1) fun e' he => .pure ⟨rfl, ?_, he.ready⟩
      simp only [Expr.Settled, he.ty_eq]
      exact ⟨he.settled, h.2⟩
  | .binary op l r common facts i, h => by
      simp only [Expr.Settled] at h
      refine .bind (Expr.settledAs_withMapFacts hctx h.1) fun l' hl =>
        .bind (Expr.settledAs_withMapFacts hctx h.2.1) fun r' hr => ?_
      have hs : ∀ facts, (Expr.binary op l' r' common facts i).Settled ⟨ctx', sc.signatures⟩ := by
        intro facts
        simp only [Expr.Settled, hl.ty_eq, hr.ty_eq]
        exact ⟨hl.settled, hr.settled, h.2.2⟩
      split
      · refine .bind gives_freshMapFacts fun facts _ => .pure ⟨rfl, hs _, hl.ready, hr.ready, ?_⟩
        rintro rfl
        obtain ⟨e, u, hlt, -, hi⟩ := h.2.2.of_map
        exact ⟨rfl, ⟨u, hi⟩, e, hl.ty_eq.trans hlt⟩
      · rename_i hop
        exact .pure ⟨rfl, hs _, hl.ready, hr.ready, fun h => absurd h hop⟩
  | .call f as i, h => by
      simp only [Expr.Settled] at h
      obtain ⟨has, hcase⟩ := h
      rcases hcase with ⟨j, rfl, hlen, hj, hi⟩ | ⟨hf, rs, hty, hi⟩
      · -- `println` stays what it is
        refine .bind (P := fun f' => f' = .builtin .println j) (.pure rfl) fun f' hf => ?_
        refine .bind (Expr.listSettledAs_withMapFactsList hctx has) fun as' has' => .pure ?_
        rw [hf]
        refine ⟨rfl, ?_, trivial, has'.ready⟩
        simp only [Expr.Settled, has'.types, has'.length_eq]
        exact ⟨has'.settled, .inl ⟨j, rfl, hlen, hj, hi⟩⟩
      · refine .bind (Expr.settledAs_withMapFacts hctx hf) fun f' hf' => ?_
        refine .bind (Expr.listSettledAs_withMapFactsList hctx has) fun as' has' => .pure ?_
        refine ⟨rfl, ?_, hf'.ready, has'.ready⟩
        simp only [Expr.Settled, has'.types, hf'.ty_eq]
        exact ⟨has'.settled, .inr ⟨hf'.settled, rs, hty, hi⟩⟩
  | .index s p b i, h => by
      simp only [Expr.Settled] at h
      refine .bind (Expr.settledAs_withMapFacts hctx h.1) fun s' hs =>
        .bind (Expr.settledAs_withMapFacts hctx h.2.1)
          fun p' hp => .pure ⟨rfl, ?_, hs.ready, hp.ready⟩
      simp only [Expr.Settled, hs.ty_eq, hp.ty_eq]
      exact ⟨hs.settled, hp.settled, h.2.2⟩
  | .len e i, h => by
      simp only [Expr.Settled] at h
      refine .bind (Expr.settledAs_withMapFacts hctx h.1) fun e' he => .pure ⟨rfl, ?_, he.ready⟩
      simp only [Expr.Settled, he.ty_eq]
      exact ⟨he.settled, h.2⟩
  | .alloc t e s i, h => by
      simp only [Expr.Settled] at h
      refine .bind (Expr.settledAs_withMapFacts hctx h.1) fun e' he => .pure ⟨rfl, ?_, he.ready⟩
      simp only [Expr.Settled, he.ty_eq]
      exact ⟨he.settled, h.2⟩
  | .slice es o i, h => by
      simp only [Expr.Settled] at h
      obtain ⟨hes, hvalid, t, hi, ht⟩ := h
      refine .bind (Expr.listSettledAs_withMapFactsList hctx hes) fun es' hes' =>
        .pure ⟨rfl, ?_, hes'.ready⟩
      exact ⟨hes'.settled, hvalid, t, hi, Expr.forall_ty_congr hes'.types ht⟩
  | .closure ps rs cs b i, h => by
      simp only [Expr.Settled] at h
      obtain ⟨hps, hcs, hb, hi, hvalid⟩ := h
      refine .bind (Stmt.settledBlock_withMapFactsList hctx hb) fun b' hb' => .pure ⟨rfl, ?_, hb'.2⟩
      simp only [Expr.Settled, Context.typeOf_congr hctx, Context.knows_congr hctx]
      exact ⟨hps, hcs, hb'.1, hi, hvalid⟩

theorem Expr.listSettledAs_withMapFactsList (hctx : ctx'.locals = sc.ctx.locals) :
    ∀ {es : List Expr}, Expr.SettledList sc es →
    SiteM.Gives (Expr.withMapFactsList es) (Expr.ListSettledAs ⟨ctx', sc.signatures⟩ es)
  | [], _ => .pure ⟨rfl, trivial, trivial⟩
  | e :: es, h => by
      simp only [Expr.SettledList] at h
      refine .bind (Expr.settledAs_withMapFacts hctx h.1) fun e' he =>
        .bind (Expr.listSettledAs_withMapFactsList hctx h.2) fun es' hes => .pure ⟨?_, ?_, ?_⟩
      · rw [List.map_cons, List.map_cons, he.ty_eq, hes.types]
      · exact ⟨he.settled, hes.settled⟩
      · exact ⟨he.ready, hes.ready⟩

theorem Stmt.settled_withMapFacts (hctx : ctx'.locals = sc.ctx.locals)
    {rs : List Ty} : ∀ {s : Stmt}, s.Settled sc rs →
    SiteM.Gives s.withMapFacts fun s' => s'.Settled ⟨ctx', sc.signatures⟩ rs ∧ s'.MapsReady
  | .bind x e, h | .assign x e, h => by
      simp only [Stmt.Settled] at h
      refine .bind (Expr.settledAs_withMapFacts hctx h.1) fun e' he => .pure ⟨?_, he.ready⟩
      simp only [Stmt.Settled, he.ty_eq, Context.typeOf_congr hctx, Context.knows_congr hctx]
      exact ⟨he.settled, h.2⟩
  | .store s p v b, h => by
      simp only [Stmt.Settled] at h
      refine .bind (Expr.settledAs_withMapFacts hctx h.1) fun s' hs =>
        .bind (Expr.settledAs_withMapFacts hctx h.2.1) fun p' hp =>
          .bind (Expr.settledAs_withMapFacts hctx h.2.2.1) fun v' hv =>
            .pure ⟨?_, hs.ready, hp.ready, hv.ready⟩
      simp only [Stmt.Settled, hs.ty_eq, hp.ty_eq, hv.ty_eq]
      exact ⟨hs.settled, hp.settled, hv.settled, h.2.2.2⟩
  | .expr e, h => by
      simp only [Stmt.Settled] at h
      exact .bind (Expr.settledAs_withMapFacts hctx h) fun e' he => .pure ⟨he.settled, he.ready⟩
  | .return es, h => by
      simp only [Stmt.Settled] at h
      refine .bind (Expr.listSettledAs_withMapFactsList hctx h.1)
        fun es' hes => .pure ⟨?_, hes.ready⟩
      simp only [Stmt.Settled, Validate.returned_congr hes.types]
      exact ⟨hes.settled, h.2⟩
  | .if c t e, h => by
      simp only [Stmt.Settled] at h
      refine .bind (Expr.settledAs_withMapFacts hctx h.1) fun c' hc =>
        .bind (Stmt.settledBlock_withMapFactsList hctx h.2.2.1) fun t' ht =>
          .bind (Stmt.settledBlock_withMapFactsList hctx h.2.2.2) fun e' he =>
            .pure ⟨?_, hc.ready, ht.2, he.2⟩
      simp only [Stmt.Settled, hc.ty_eq]
      exact ⟨hc.settled, h.2.1, ht.1, he.1⟩
  | .while c b, h => by
      simp only [Stmt.Settled] at h
      refine .bind (Expr.settledAs_withMapFacts hctx h.1) fun c' hc =>
        .bind (Stmt.settledBlock_withMapFactsList hctx h.2.2)
          fun b' hb => .pure ⟨?_, hc.ready, hb.2⟩
      simp only [Stmt.Settled, hc.ty_eq]
      exact ⟨hc.settled, h.2.1, hb.1⟩
  | .break, _ => .pure ⟨trivial, trivial⟩
  | .for x a z b, h => by
      simp only [Stmt.Settled] at h
      obtain ⟨ha, hz, hat, hzt, hx, hxt, hb⟩ := h
      refine .bind (Expr.settledAs_withMapFacts hctx ha) fun a' ha =>
        .bind (Expr.settledAs_withMapFacts hctx hz) fun z' hz =>
          .bind (Stmt.settledBlock_withMapFactsList hctx hb) fun b' hb =>
            .pure ⟨?_, ha.ready, hz.ready, hb.2⟩
      simp only [Stmt.Settled, ha.ty_eq, hz.ty_eq, Context.typeOf_congr hctx,
        Context.knows_congr hctx]
      exact ⟨ha.settled, hz.settled, hat, hzt, hx, hxt, hb.1⟩

theorem Stmt.settledBlock_withMapFactsList (hctx : ctx'.locals = sc.ctx.locals)
    {rs : List Ty} : ∀ {ss : List Stmt},
    Stmt.SettledBlock sc rs ss → SiteM.Gives (Stmt.withMapFactsList ss) fun ss' =>
      Stmt.SettledBlock ⟨ctx', sc.signatures⟩ rs ss' ∧ Stmt.AllMapsReady ss'
  | [], _ => .pure ⟨trivial, trivial⟩
  | s :: ss, h => by
      simp only [Stmt.SettledBlock] at h
      exact .bind (Stmt.settled_withMapFacts hctx h.1) fun s' hs =>
        .bind (Stmt.settledBlock_withMapFactsList hctx h.2) fun ss' hss =>
          .pure ⟨⟨hs.1, hss.1⟩, hs.2, hss.2⟩

end

end Walk

/-! ## Modules -/

/-- A function with settled code keeps its locals when its maps get their facts. -/
theorem Function.locals_withMapFacts_of_settled {sigs : Validate.Signatures} {f : Function}
    (hf : Stmt.SettledBlock ⟨f.ctx, sigs⟩ f.results f.body) :
    f.withMapFacts.ctx.locals = f.ctx.locals :=
  (Stmt.settledBlock_withMapFactsList (show f.ctx.locals = f.ctx.locals from rfl) hf f.ctx).2

/-- **Giving facts to maps keeps a module settled, and makes its maps ready.** -/
theorem Module.Settled.withMapFacts {m : Module} (hm : m.Settled) :
    m.withMapFacts.Settled ∧ m.withMapFacts.MapsReady := by
  have hlocals : ∀ f ∈ m.functions, f.withMapFacts.ctx.locals = f.ctx.locals :=
    fun f hf => Function.locals_withMapFacts_of_settled (hm f hf).2
  have hbody : ∀ f ∈ m.functions,
      Stmt.SettledBlock ⟨f.withMapFacts.ctx, Validate.signatures m⟩ f.results f.withMapFacts.body ∧
        Stmt.AllMapsReady f.withMapFacts.body := fun f hf =>
    (Stmt.settledBlock_withMapFactsList (hlocals f hf) (hm f hf).2 f.ctx).1
  refine ⟨fun g hg => ?_, fun g hg => ?_⟩
  · obtain ⟨f, hf, rfl⟩ := List.mem_map.1 hg
    rw [Module.signatures_withMapFacts_of_locals hlocals]
    exact ⟨fun x hx => (Context.knows_congr (hlocals f hf)).2 ((hm f hf).1 x hx), (hbody f hf).1⟩
  · obtain ⟨f, hf, rfl⟩ := List.mem_map.1 hg
    exact (hbody f hf).2

end Rivulet.Ir
