import Rivulet.Ir.MapFacts
import Rivulet.Proofs.Code.Validation

set_option autoImplicit false

/-! # Code with facts on its maps

Giving facts to the maps of well-typed code keeps it well typed, and leaves every map ready to be
lowered: it has its facts, and the types of its result and of its sequence are types of sequences
(`Module.mapsReady_withMapFacts`). Nothing but the handing out of allocation sites happens to the
tables of locals. -/

namespace Rivulet.Ir

open Validate (Scene)

/-! ## Maps that are ready -/

mutual

/-- Every map in an expression has its facts and the types that lowering needs. -/
def Expr.MapsReady : Expr → Prop
  | .const _ _ | .local _ _ | .function _ _ | .builtin _ _ => True
  | .unary _ e _ | .len e _ | .alloc _ e _ _ => e.MapsReady
  | .binary op l r _ facts i =>
      l.MapsReady ∧ r.MapsReady ∧
        (op = .map → facts.isSome ∧ (∃ t, i.ty = .slice t) ∧ ∃ t, l.ty = .slice t)
  | .call f as _ => f.MapsReady ∧ Expr.AllMapsReady as
  | .index s p _ _ => s.MapsReady ∧ p.MapsReady
  | .slice es _ _ => Expr.AllMapsReady es
  | .closure _ _ _ b _ => Stmt.AllMapsReady b
termination_by structural e => e

/-- Every map in some expressions is ready. -/
def Expr.AllMapsReady : List Expr → Prop
  | [] => True
  | e :: es => e.MapsReady ∧ Expr.AllMapsReady es
termination_by structural es => es

/-- Every map in a statement is ready. -/
def Stmt.MapsReady : Stmt → Prop
  | .bind _ e | .assign _ e | .expr e => e.MapsReady
  | .store s p v _ => s.MapsReady ∧ p.MapsReady ∧ v.MapsReady
  | .return es => Expr.AllMapsReady es
  | .if c t e => c.MapsReady ∧ Stmt.AllMapsReady t ∧ Stmt.AllMapsReady e
  | .while c b => c.MapsReady ∧ Stmt.AllMapsReady b
  | .break => True
  | .for _ a z b => a.MapsReady ∧ z.MapsReady ∧ Stmt.AllMapsReady b
termination_by structural s => s

/-- Every map in a block is ready. -/
def Stmt.AllMapsReady : List Stmt → Prop
  | [] => True
  | s :: ss => s.MapsReady ∧ Stmt.AllMapsReady ss
termination_by structural ss => ss

end

/-- Every map in a module is ready. -/
def Module.MapsReady (m : Module) : Prop := ∀ f ∈ m.functions, Stmt.AllMapsReady f.body

/-! ## The handing out of allocation sites -/

/-- A step gives something with a property, and leaves the locals as they are. -/
def SiteM.Gives {α : Type} (x : SiteM α) (P : α → Prop) : Prop :=
  ∀ ctx : Context, P (x.run ctx).1 ∧ (x.run ctx).2.locals = ctx.locals

namespace SiteM.Gives

variable {α β : Type} {x : SiteM α} {f : α → SiteM β} {P : α → Prop} {Q : β → Prop}

theorem pure {a : α} (h : P a) : Gives (pure a) P := fun _ => ⟨h, rfl⟩

theorem bind (hx : Gives x P) (hf : ∀ a, P a → Gives (f a) Q) : Gives (x >>= f) Q := by
  intro ctx
  obtain ⟨ha, hctx⟩ := hx ctx
  obtain ⟨hb, hctx'⟩ := hf _ ha (x.run ctx).2
  exact ⟨hb, hctx'.trans hctx⟩

end SiteM.Gives

theorem gives_freshMapFacts : SiteM.Gives freshMapFacts fun _ => True := fun _ => ⟨trivial, rfl⟩

/-! ## Well-typed code -/

/-- What becomes of a well-typed expression: its type stays, and its maps are ready. -/
structure Expr.Annotated (sc : Scene) (live : List LocalId) (e e' : Expr) : Prop where
  info : e'.info = e.info
  wellTyped : e'.WellTyped sc live
  ready : e'.MapsReady

/-- What becomes of a list of well-typed expressions. -/
structure Expr.ListAnnotated (sc : Scene) (live : List LocalId) (es es' : List Expr) : Prop where
  types : es'.map Expr.ty = es.map Expr.ty
  wellTyped : Expr.WellTypedList sc live es'
  ready : Expr.AllMapsReady es'

/-- What becomes of a well-typed statement. -/
structure Stmt.Annotated (sc : Scene) (rs : List Ty) (live : List LocalId) (s s' : Stmt) : Prop where
  binds : s'.binds = s.binds
  returns : s'.returns = s.returns
  wellTyped : s'.WellTyped sc rs live
  ready : s'.MapsReady

/-- What becomes of a well-typed block. -/
structure Stmt.BlockAnnotated (sc : Scene) (rs : List Ty) (live : List LocalId)
    (ss ss' : List Stmt) : Prop where
  returns : Stmt.anyReturns ss' = Stmt.anyReturns ss
  wellTyped : Stmt.WellTypedBlock sc rs live ss'
  ready : Stmt.AllMapsReady ss'

theorem Expr.Annotated.ty_eq {sc : Scene} {live : List LocalId} {e e' : Expr}
    (h : Expr.Annotated sc live e e') : e'.ty = e.ty := by
  simp only [Expr.ty, h.info]

theorem Expr.ListAnnotated.length_eq {sc : Scene} {live : List LocalId} {es es' : List Expr}
    (h : Expr.ListAnnotated sc live es es') : es'.length = es.length := by
  simpa only [List.length_map] using congrArg List.length h.types

/-- What is returned depends on the types only. -/
theorem Validate.returned_congr {rs : List Ty} {es es' : List Expr}
    (h : es'.map Expr.ty = es.map Expr.ty) : Validate.returned rs es' = Validate.returned rs es := by
  match es, es', h with
  | [], [], _ => rfl
  | [e], [e'], h =>
      simp only [List.map_cons, List.map_nil, List.cons.injEq, and_true] at h
      simp only [Validate.returned, h]
  | _ :: _ :: _, _ :: _ :: _, h => exact h
  | [], _ :: _, h | _ :: _, [], h => simp at h
  | [_], _ :: _ :: _, h | _ :: _ :: _, [_], h => simp at h

/-! ### The tables -/

section Tables

variable {ctx ctx' : Context} (h : ctx'.locals = ctx.locals)

include h

theorem Context.typeOf_congr : ctx'.typeOf = ctx.typeOf := by
  funext x
  simp only [Context.typeOf, Context.get?, h]

theorem Context.knows_congr {x : LocalId} : ctx'.Knows x ↔ ctx.Knows x := by
  simp only [Context.Knows, h]

theorem Context.isTemp_congr : ctx'.isTemp = ctx.isTemp := by
  funext x
  simp only [Context.isTemp, Context.get?, h]

end Tables

/-! ### The walk -/

section Walk

variable {sc : Scene} {ctx' : Context}

mutual

theorem Expr.annotated_withMapFacts (hctx : ctx'.locals = sc.ctx.locals)
    {live : List LocalId} : ∀ {e : Expr}, e.WellTyped sc live →
    SiteM.Gives e.withMapFacts (Expr.Annotated ⟨ctx', sc.signatures⟩ live e)
  | .const c i, h => .pure ⟨rfl, h, trivial⟩
  | .local x i, h => by
      refine .pure ⟨rfl, ?_, trivial⟩
      simp only [Expr.WellTyped, Context.typeOf_congr hctx] at h ⊢
      exact h
  | .function f i, h => .pure ⟨rfl, h, trivial⟩
  | .builtin b i, h => .pure ⟨rfl, h, trivial⟩
  | .unary op e i, h => by
      simp only [Expr.WellTyped] at h
      refine .bind (Expr.annotated_withMapFacts hctx h.1) fun e' he => .pure ⟨rfl, ?_, ?_⟩
      · simp only [Expr.WellTyped, he.ty_eq]
        exact ⟨he.wellTyped, h.2⟩
      · exact he.ready
  | .binary op l r common facts i, h => by
      simp only [Expr.WellTyped] at h
      refine .bind (Expr.annotated_withMapFacts hctx h.1) fun l' hl =>
        .bind (Expr.annotated_withMapFacts hctx h.2.1) fun r' hr => ?_
      have hwt : ∀ facts, (Expr.binary op l' r' common facts i).WellTyped ⟨ctx', sc.signatures⟩ live := by
        intro facts
        simp only [Expr.WellTyped, hl.ty_eq, hr.ty_eq]
        exact ⟨hl.wellTyped, hr.wellTyped, h.2.2⟩
      split
      · -- that the new facts fit the map is known from the types of its operands
        refine .bind gives_freshMapFacts fun facts _ => .pure ⟨rfl, hwt _, hl.ready, hr.ready, ?_⟩
        rintro rfl
        obtain ⟨e, u, hlt, -, hi⟩ := h.2.2.of_map
        exact ⟨rfl, ⟨u, hi⟩, e, hl.ty_eq.trans hlt⟩
      · rename_i hop
        exact .pure ⟨rfl, hwt _, hl.ready, hr.ready, fun h => absurd h hop⟩
  | .call f as i, h => by
      simp only [Expr.WellTyped] at h
      obtain ⟨has, hcase⟩ := h
      rcases hcase with ⟨j, rfl, hlen, hj, hi⟩ | ⟨hf, rs, hty, hi⟩
      · -- `println` stays what it is
        refine .bind (P := fun f' => f' = .builtin .println j) (.pure rfl) fun f' hf => ?_
        refine .bind (Expr.listAnnotated_withMapFactsList hctx has) fun as' has' => .pure ?_
        rw [hf]
        refine ⟨rfl, ?_, trivial, has'.ready⟩
        simp only [Expr.WellTyped, has'.types, has'.length_eq]
        exact ⟨has'.wellTyped, .inl ⟨j, rfl, hlen, hj, hi⟩⟩
      · refine .bind (Expr.annotated_withMapFacts hctx hf) fun f' hf' => ?_
        refine .bind (Expr.listAnnotated_withMapFactsList hctx has) fun as' has' => .pure ?_
        refine ⟨rfl, ?_, hf'.ready, has'.ready⟩
        simp only [Expr.WellTyped, has'.types, hf'.ty_eq]
        exact ⟨has'.wellTyped, .inr ⟨hf'.wellTyped, rs, hty, hi⟩⟩
  | .index s p b i, h => by
      simp only [Expr.WellTyped] at h
      refine .bind (Expr.annotated_withMapFacts hctx h.1) fun s' hs =>
        .bind (Expr.annotated_withMapFacts hctx h.2.1)
          fun p' hp => .pure ⟨rfl, ?_, hs.ready, hp.ready⟩
      simp only [Expr.WellTyped, hs.ty_eq, hp.ty_eq]
      exact ⟨hs.wellTyped, hp.wellTyped, h.2.2⟩
  | .len e i, h => by
      simp only [Expr.WellTyped] at h
      refine .bind (Expr.annotated_withMapFacts hctx h.1) fun e' he => .pure ⟨rfl, ?_, he.ready⟩
      simp only [Expr.WellTyped, he.ty_eq]
      exact ⟨he.wellTyped, h.2⟩
  | .slice es o i, h => by
      simp only [Expr.WellTyped] at h
      obtain ⟨hes, hvalid, t, hi, ht⟩ := h
      refine .bind (Expr.listAnnotated_withMapFactsList hctx hes)
        fun es' hes' => .pure ⟨rfl, ?_, hes'.ready⟩
      simp only [Expr.WellTyped]
      refine ⟨hes'.wellTyped, hvalid, t, hi, ?_⟩
      have hall : ∀ u ∈ es'.map Expr.ty, u = t := by
        rw [hes'.types]
        intro u hu
        obtain ⟨e, he, rfl⟩ := List.mem_map.1 hu
        exact ht e he
      exact fun e he => hall e.ty (List.mem_map_of_mem he)
  | .closure ps rs cs b i, h => by
      simp only [Expr.WellTyped] at h
      obtain ⟨hps, hcs, hrs, hb, hret, hi⟩ := h
      refine .bind (Stmt.blockAnnotated_withMapFactsList hctx hb)
        fun b' hb' => .pure ⟨rfl, ?_, hb'.ready⟩
      simp only [Expr.WellTyped, hb'.returns, Context.typeOf_congr hctx, Context.knows_congr hctx]
      exact ⟨hps, hcs, hrs, hb'.wellTyped, hret, hi⟩

theorem Expr.listAnnotated_withMapFactsList (hctx : ctx'.locals = sc.ctx.locals)
    {live : List LocalId} :
    ∀ {es : List Expr}, Expr.WellTypedList sc live es →
      SiteM.Gives (Expr.withMapFactsList es) (Expr.ListAnnotated ⟨ctx', sc.signatures⟩ live es)
  | [], _ => .pure ⟨rfl, trivial, trivial⟩
  | e :: es, h => by
      simp only [Expr.WellTypedList] at h
      refine .bind (Expr.annotated_withMapFacts hctx h.1) fun e' he =>
        .bind (Expr.listAnnotated_withMapFactsList hctx h.2) fun es' hes => .pure ⟨?_, ?_, ?_⟩
      · rw [List.map_cons, List.map_cons, he.ty_eq, hes.types]
      · exact ⟨he.wellTyped, hes.wellTyped⟩
      · exact ⟨he.ready, hes.ready⟩

theorem Stmt.annotated_withMapFacts (hctx : ctx'.locals = sc.ctx.locals)
    {rs : List Ty} {live : List LocalId} :
    ∀ {s : Stmt}, s.WellTyped sc rs live →
      SiteM.Gives s.withMapFacts (Stmt.Annotated ⟨ctx', sc.signatures⟩ rs live s)
  | .bind x e, h => by
      simp only [Stmt.WellTyped] at h
      refine .bind (Expr.annotated_withMapFacts hctx h.1)
        fun e' he => .pure ⟨rfl, rfl, ?_, he.ready⟩
      simp only [Stmt.WellTyped, he.ty_eq, Context.typeOf_congr hctx, Context.knows_congr hctx]
      exact ⟨he.wellTyped, h.2⟩
  | .assign x e, h => by
      simp only [Stmt.WellTyped] at h
      refine .bind (Expr.annotated_withMapFacts hctx h.1)
        fun e' he => .pure ⟨rfl, rfl, ?_, he.ready⟩
      simp only [Stmt.WellTyped, he.ty_eq, Context.typeOf_congr hctx]
      exact ⟨he.wellTyped, h.2⟩
  | .expr e, h => by
      simp only [Stmt.WellTyped] at h
      refine .bind (Expr.annotated_withMapFacts hctx h) fun e' he => .pure ⟨rfl, rfl, ?_, he.ready⟩
      exact he.wellTyped
  | .return es, h => by
      simp only [Stmt.WellTyped] at h
      refine .bind (Expr.listAnnotated_withMapFactsList hctx h.1) fun es' hes =>
        .pure ⟨rfl, rfl, ?_, hes.ready⟩
      simp only [Stmt.WellTyped, Validate.returned_congr hes.types]
      exact ⟨hes.wellTyped, h.2⟩
  | .if c t e, h => by
      simp only [Stmt.WellTyped] at h
      refine .bind (Expr.annotated_withMapFacts hctx h.1) fun c' hc =>
        .bind (Stmt.blockAnnotated_withMapFactsList hctx h.2.2.1) fun t' ht =>
          .bind (Stmt.blockAnnotated_withMapFactsList hctx h.2.2.2) fun e' he =>
            .pure ⟨rfl, ?_, ?_, hc.ready, ht.ready, he.ready⟩
      · simp only [Stmt.returns, ht.returns, he.returns]
      · simp only [Stmt.WellTyped, hc.ty_eq]
        exact ⟨hc.wellTyped, h.2.1, ht.wellTyped, he.wellTyped⟩
  | .while c b, h => by
      simp only [Stmt.WellTyped] at h
      refine .bind (Expr.annotated_withMapFacts hctx h.1) fun c' hc =>
        .bind (Stmt.blockAnnotated_withMapFactsList hctx h.2.2) fun b' hb =>
          .pure ⟨rfl, rfl, ?_, hc.ready, hb.ready⟩
      simp only [Stmt.WellTyped, hc.ty_eq]
      exact ⟨hc.wellTyped, h.2.1, hb.wellTyped⟩

theorem Stmt.blockAnnotated_withMapFactsList (hctx : ctx'.locals = sc.ctx.locals)
    {rs : List Ty} {live : List LocalId} :
    ∀ {ss : List Stmt}, Stmt.WellTypedBlock sc rs live ss →
      SiteM.Gives (Stmt.withMapFactsList ss) (Stmt.BlockAnnotated ⟨ctx', sc.signatures⟩ rs live ss)
  | [], _ => .pure ⟨rfl, trivial, trivial⟩
  | s :: ss, h => by
      simp only [Stmt.WellTypedBlock] at h
      refine .bind (Stmt.annotated_withMapFacts hctx h.1) fun s' hs =>
        .bind (Stmt.blockAnnotated_withMapFactsList hctx h.2) fun ss' hss =>
          .pure ⟨?_, ?_, hs.ready, hss.ready⟩
      · simp only [Stmt.anyReturns, hs.returns, hss.returns]
      · simp only [Stmt.WellTypedBlock, hs.binds]
        exact ⟨hs.wellTyped, hss.wellTyped⟩

end

end Walk

/-! ## Modules -/

/-- The table of locals of a well-typed function stays as it is. -/
theorem Function.locals_withMapFacts {sigs : Validate.Signatures} {f : Function}
    (hf : f.WellTyped sigs) : f.withMapFacts.ctx.locals = f.ctx.locals :=
  (Stmt.blockAnnotated_withMapFactsList (show f.ctx.locals = f.ctx.locals from rfl) hf.body f.ctx).2

theorem Function.blockAnnotated_withMapFacts {sigs : Validate.Signatures} {f : Function}
    (hf : f.WellTyped sigs) :
    Stmt.BlockAnnotated ⟨f.withMapFacts.ctx, sigs⟩ f.results f.params f.body f.withMapFacts.body :=
  (Stmt.blockAnnotated_withMapFactsList (Function.locals_withMapFacts hf) hf.body f.ctx).1

theorem Function.wellTyped_withMapFacts {sigs : Validate.Signatures} {f : Function}
    (hf : f.WellTyped sigs) : f.withMapFacts.WellTyped sigs := by
  have hctx := Function.locals_withMapFacts hf
  have hbody := Function.blockAnnotated_withMapFacts hf
  refine ⟨?_, ?_, ?_, hf.results_valid, hbody.wellTyped, ?_⟩
  · intro x hx
    rw [Context.typeOf_congr hctx]
    exact hf.locals_valid x ((Context.knows_congr hctx).1 hx)
  · intro x hx
    rw [Context.isTemp_congr hctx]
    exact hf.locals_declared x ((Context.knows_congr hctx).1 hx)
  · exact fun x hx => (Context.knows_congr hctx).2 (hf.params_known x hx)
  · rw [hbody.returns]
    exact hf.returns

/-- Signatures depend on the locals only, apart from what is not touched. -/
theorem Module.signatures_withMapFacts_of_locals {m : Module}
    (hlocals : ∀ f ∈ m.functions, f.withMapFacts.ctx.locals = f.ctx.locals) :
    Validate.signatures m.withMapFacts = Validate.signatures m := by
  have hsig : ∀ f ∈ m.functions, (f.withMapFacts.name, f.withMapFacts.signature)
      = (f.name, f.signature) := by
    intro f hf
    have htypes := Context.typeOf_congr (hlocals f hf)
    have hname : f.withMapFacts.name = f.name := rfl
    have hsig : f.withMapFacts.signature
        = .func (f.params.map f.withMapFacts.ctx.typeOf) f.results := rfl
    rw [hname, hsig, htypes]
    rfl
  simp only [Validate.signatures, Module.withMapFacts, List.map_map]
  exact congrArg List.reverse (List.map_congr_left hsig)

theorem Module.signatures_withMapFacts {m : Module} (hm : m.WellTyped) :
    Validate.signatures m.withMapFacts = Validate.signatures m :=
  Module.signatures_withMapFacts_of_locals fun f hf => Function.locals_withMapFacts (hm f hf)

/-- **Giving facts to maps keeps a module well typed.** -/
theorem Module.wellTyped_withMapFacts {m : Module} (hm : m.WellTyped) :
    m.withMapFacts.WellTyped := by
  intro f hf
  obtain ⟨g, hg, rfl⟩ := List.mem_map.1 hf
  rw [Module.signatures_withMapFacts hm]
  exact Function.wellTyped_withMapFacts (hm g hg)

/-- **Every map of a well-typed module gets ready to be lowered.** -/
theorem Module.mapsReady_withMapFacts {m : Module} (hm : m.WellTyped) : m.withMapFacts.MapsReady := by
  intro f hf
  obtain ⟨g, hg, rfl⟩ := List.mem_map.1 hf
  exact (Function.blockAnnotated_withMapFacts (hm g hg)).ready

end Rivulet.Ir
