import Rivulet.Ir.OfTyped
import Rivulet.Proofs.Check.Judgement
import Rivulet.Proofs.Code.WellTyped

set_option autoImplicit false

/-! # Steps of the generator

How the steps by which code is made of a typed tree succeed, and what follows from their success.
`Makes` says that a step succeeds with a value and a new context; it is closed under sequencing, and
a sequence that succeeds can be taken apart.

Contexts only grow (`Context.Le`), and what is in their tables is valid and no temporary
(`Context.Tidy`). The scope of the generator agrees with the scope of the judgement, entry by entry
(`Agrees`), and a name that is alive in the tree is a live local of the code (`Lives`). -/

namespace Rivulet.Ir

/-! ## Steps -/

/-- A step of the generator succeeds, with a value and a new context. -/
def Makes {α : Type} (make : Make α) (ctx : Context) (a : α) (ctx' : Context) : Prop :=
  make.run ctx = .ok (a, ctx')

namespace Makes

variable {α β : Type} {make : Make α} {next : α → Make β} {a : α} {b : β} {ctx ctx' ctx'' : Context}

theorem pure (a : α) (ctx : Context) : Makes (pure a) ctx a ctx := rfl

theorem pure_inv {c : α} (h : Makes (Pure.pure c) ctx a ctx') : c = a ∧ ctx' = ctx := by
  have heq : (Except.ok (c, ctx) : Except Breach (α × Context)) = .ok (a, ctx') := h
  simp only [Except.ok.injEq, Prod.mk.injEq] at heq
  exact ⟨heq.1, heq.2.symm⟩

theorem bind (h : Makes make ctx a ctx') (h' : Makes (next a) ctx' b ctx'') :
    Makes (make >>= next) ctx b ctx'' := by
  unfold Makes at *
  rw [StateT.run_bind, h]
  exact h'

/-- A sequence of steps that succeeds, taken apart. -/
theorem bind_inv (h : Makes (make >>= next) ctx b ctx'') :
    ∃ a ctx', Makes make ctx a ctx' ∧ Makes (next a) ctx' b ctx'' := by
  unfold Makes at *
  rw [StateT.run_bind] at h
  cases hm : make.run ctx with
  | error e => rw [hm] at h; cases h
  | ok p =>
      obtain ⟨a, ctx'⟩ := p
      rw [hm] at h
      exact ⟨a, ctx', rfl, h⟩

theorem lift {x : Except Breach α} (h : x = .ok a) (ctx : Context) :
    Makes (liftM x) ctx a ctx := by
  subst h
  rfl

theorem lift_inv {x : Except Breach α} (h : Makes (liftM x) ctx a ctx') :
    x = .ok a ∧ ctx' = ctx := by
  cases x with
  | error e => cases h
  | ok b =>
      obtain ⟨rfl, hctx⟩ := pure_inv (c := b) h
      exact ⟨rfl, hctx⟩

end Makes

/-! ## Contexts -/

/-- One context extends another: what is in its table stays as it is. -/
def Context.Le (ctx ctx' : Context) : Prop :=
  ∀ x info, ctx.get? x = some info → ctx'.get? x = some info

/-- The locals in the table have valid types and are no temporaries. -/
def Context.Tidy (ctx : Context) : Prop :=
  ∀ x info, ctx.get? x = some info → info.ty.hasInvalid = false ∧ info.temp = false

namespace Context

variable {ctx ctx' ctx'' : Context} {x : LocalId}

theorem Le.refl (ctx : Context) : ctx.Le ctx := fun _ _ h => h

theorem Le.trans (h : ctx.Le ctx') (h' : ctx'.Le ctx'') : ctx.Le ctx'' :=
  fun x info hx => h' x info (h x info hx)

theorem knows_iff : ctx.Knows x ↔ ∃ info, ctx.get? x = some info := by
  unfold Knows get?
  constructor
  · exact fun h => ⟨_, Array.getElem?_eq_getElem h⟩
  · rintro ⟨info, h⟩
    exact (Array.getElem?_eq_some_iff.1 h).1

theorem Le.knows (h : ctx.Le ctx') (hx : ctx.Knows x) : ctx'.Knows x := by
  rw [knows_iff] at hx ⊢
  obtain ⟨info, hi⟩ := hx
  exact ⟨info, h x info hi⟩

theorem Le.typeOf (h : ctx.Le ctx') (hx : ctx.Knows x) : ctx'.typeOf x = ctx.typeOf x := by
  obtain ⟨info, hi⟩ := knows_iff.1 hx
  simp only [Context.typeOf, hi, h x info hi]

theorem Tidy.valid (h : ctx.Tidy) (hx : ctx.Knows x) : (ctx.typeOf x).hasInvalid = false := by
  obtain ⟨info, hi⟩ := knows_iff.1 hx
  simp only [Context.typeOf, hi, Option.map_some, Option.getD_some]
  exact (h x info hi).1

theorem Tidy.declared (h : ctx.Tidy) (hx : ctx.Knows x) : ctx.isTemp x = false := by
  obtain ⟨info, hi⟩ := knows_iff.1 hx
  simp only [Context.isTemp, hi, Option.any_some]
  exact (h x info hi).2

theorem get?_declare (ctx : Context) (name : String) (t : Ty) (x : LocalId) :
    (ctx.declare name t).2.get? x
      = if x = (ctx.declare name t).1 then some ⟨name, t, false⟩ else ctx.get? x := by
  simp only [declare, get?, Array.getElem?_push]
  by_cases hx : x.index = ctx.locals.size
  · have hx' : x = ⟨ctx.locals.size⟩ := by cases x; simp_all
    simp [hx']
  · have hx' : x ≠ ⟨ctx.locals.size⟩ := by
      intro h
      exact hx (by rw [h])
    simp [hx, hx']

theorem le_declare (ctx : Context) (name : String) (t : Ty) : ctx.Le (ctx.declare name t).2 := by
  intro x info hx
  rw [get?_declare]
  split
  · rename_i heq
    have hlt := knows_iff.2 ⟨info, hx⟩
    rw [heq] at hlt
    exact absurd hlt (by simp [Knows, declare])
  · exact hx

theorem knows_declare (ctx : Context) (name : String) (t : Ty) :
    (ctx.declare name t).2.Knows (ctx.declare name t).1 :=
  knows_iff.2 ⟨_, by rw [get?_declare, if_pos rfl]⟩

theorem typeOf_declare (ctx : Context) (name : String) (t : Ty) :
    (ctx.declare name t).2.typeOf (ctx.declare name t).1 = t := by
  simp [Context.typeOf, get?_declare]

theorem Tidy.declare (h : ctx.Tidy) {name : String} {t : Ty} (ht : t.hasInvalid = false) :
    (ctx.declare name t).2.Tidy := by
  intro x info hx
  rw [get?_declare] at hx
  split at hx
  · cases hx
    exact ⟨ht, rfl⟩
  · exact h x info hx

end Context

theorem Make.makes_declare (ctx : Context) (name : String) (t : Ty) :
    Makes (Make.declare name t) ctx (ctx.declare name t).1 (ctx.declare name t).2 := rfl

theorem Make.makes_freshSite (ctx : Context) :
    Makes Make.freshSite ctx ctx.freshSite.1 ctx.freshSite.2 := rfl

theorem Context.le_freshSite (ctx : Context) : ctx.Le ctx.freshSite.2 := fun _ _ h => h

theorem Context.Tidy.freshSite {ctx : Context} (h : ctx.Tidy) : ctx.freshSite.2.Tidy :=
  fun x info hx => h x info hx

/-! ## Scopes -/

/-- The scope of the generator agrees with that of the judgement, entry by entry. -/
def Agrees (ctx : Context) (scope : Scope) (sc : Typed.Scope) : Prop :=
  List.Forall₂ (fun p q => p.1 = q.1 ∧ ctx.Knows p.2 ∧ ctx.typeOf p.2 = Ty.counterpart q.2) scope sc

/-- Names that are alive stand for live locals. -/
def Lives (scope : Scope) (alive : List String) (live : List LocalId) : Prop :=
  ∀ x ∈ alive, ∀ y, scope.lookup x = some y → y ∈ live

section Scopes

variable {ctx ctx' : Context} {scope : Scope} {sc : Typed.Scope} {alive : List String}
  {live : List LocalId}

theorem Agrees.mono (h : Agrees ctx scope sc) (hle : ctx.Le ctx') : Agrees ctx' scope sc :=
  h.imp fun _ _ ⟨hname, hknown, hty⟩ =>
    ⟨hname, hle.knows hknown, by rw [hle.typeOf hknown, hty]⟩

theorem Agrees.names (h : Agrees ctx scope sc) : scope.map Prod.fst = sc.names := by
  induction h with
  | nil => rfl
  | cons hpq _ ih => simp only [List.map_cons, Typed.Scope.names, hpq.1]; rw [ih]; rfl

/-- A name in scope has a local of its type. -/
theorem Agrees.lookup (h : Agrees ctx scope sc) {x : String} {t : Rivulet.Ty}
    (hx : sc.lookup x = some t) :
    ∃ y, scope.lookup x = some y ∧ ctx.Knows y ∧ ctx.typeOf y = Ty.counterpart t := by
  induction h with
  | nil => cases hx
  | @cons p q _ _ hpq _ ih =>
      obtain ⟨z, y⟩ := p
      obtain ⟨w, u⟩ := q
      obtain ⟨hname, hknown, hty⟩ := hpq
      simp only at hname hknown hty
      subst hname
      rw [List.lookup_cons] at hx ⊢
      split at hx
      · cases hx
        exact ⟨y, rfl, hknown, hty⟩
      · exact ih hx

theorem Agrees.cons (h : Agrees ctx scope sc) {x : String} {y : LocalId} {t : Rivulet.Ty}
    (hy : ctx.Knows y) (hty : ctx.typeOf y = Ty.counterpart t) :
    Agrees ctx ((x, y) :: scope) ((x, t) :: sc) :=
  List.Forall₂.cons ⟨rfl, hy, hty⟩ h

theorem Lives.cons (h : Lives scope alive live) (x : String) (y : LocalId) :
    Lives ((x, y) :: scope) (x :: alive) (y :: live) := by
  intro z hz w hw
  rw [List.lookup_cons] at hw
  split at hw
  · cases hw
    exact List.mem_cons_self
  · rename_i hne
    have hz' : z ∈ alive := by
      rcases List.mem_cons.1 hz with rfl | hz
      · simp at hne
      · exact hz
    exact List.mem_cons_of_mem _ (h z hz' w hw)

/-- Names in scope are found. -/
theorem exists_lookup_of_mem {x : String} (hx : x ∈ scope.map Prod.fst) :
    ∃ y, scope.lookup x = some y := by
  cases hl : scope.lookup x with
  | some y => exact ⟨y, rfl⟩
  | none =>
      rw [List.lookup_eq_none_iff] at hl
      obtain ⟨p, hp, rfl⟩ := List.mem_map.1 hx
      simpa using hl p hp

theorem mem_of_lookup {x : String} {y : LocalId} (h : scope.lookup x = some y) :
    x ∈ scope.map Prod.fst := by
  obtain ⟨l₁, l₂, rfl, -⟩ := List.lookup_eq_some_iff.1 h
  simp

theorem Make.makes_lookup {x : String} {y : LocalId} (h : scope.lookup x = some y) (s : Span)
    (ctx : Context) : Makes (Make.lookup scope x s) ctx y ctx := by
  unfold Make.lookup
  rw [h]
  rfl

theorem Make.lookup_inv {x : String} {y : LocalId} {s : Span}
    (h : Makes (Make.lookup scope x s) ctx y ctx') : scope.lookup x = some y ∧ ctx' = ctx := by
  unfold Make.lookup at h
  cases hl : scope.lookup x with
  | none => rw [hl] at h; cases h
  | some z =>
      rw [hl] at h
      obtain ⟨rfl, hctx⟩ := h.pure_inv
      exact ⟨rfl, hctx⟩

/-- The locals of captured names that are all in scope. -/
theorem Make.makes_captures {cs : List String} (h : cs ⊆ scope.map Prod.fst) (s : Span)
    (ctx : Context) :
    ∃ ys, Makes (cs.mapM fun x => Make.lookup scope x s) ctx ys ctx ∧
      List.Forall₂ (fun x y => scope.lookup x = some y) cs ys := by
  induction cs with
  | nil => exact ⟨[], Makes.pure _ _, .nil⟩
  | cons x cs ih =>
      obtain ⟨y, hy⟩ := exists_lookup_of_mem (h List.mem_cons_self)
      obtain ⟨ys, hys, hall⟩ := ih (List.subset_of_cons_subset h)
      refine ⟨y :: ys, ?_, .cons hy hall⟩
      rw [List.mapM_cons]
      exact (makes_lookup hy s ctx).bind (hys.bind (Makes.pure _ _))

theorem Make.captures_inv {cs : List String} {ys : List LocalId} {s : Span}
    (h : Makes (cs.mapM fun x => Make.lookup scope x s) ctx ys ctx') :
    cs ⊆ scope.map Prod.fst ∧ ctx' = ctx := by
  induction cs generalizing ys ctx ctx' with
  | nil => exact ⟨List.nil_subset _, (Makes.pure_inv (c := []) h).2⟩
  | cons x cs ih =>
      rw [List.mapM_cons] at h
      obtain ⟨y, ctx₁, hy, hrest⟩ := h.bind_inv
      obtain ⟨zs, ctx₂, hzs, hend⟩ := hrest.bind_inv
      obtain ⟨hlookup, h₁⟩ := lookup_inv hy
      obtain ⟨hsub, h₂⟩ := ih hzs
      refine ⟨List.cons_subset.2 ⟨mem_of_lookup hlookup, hsub⟩, ?_⟩
      rw [hend.pure_inv.2, h₂, h₁]

end Scopes

/-! ## Parameters -/

/-- New locals for parameters: they have the types of the parameters, and the scope behind them has
them in it. -/
theorem Make.makes_params :
    ∀ (ps : List Typed.Param) {ctx : Context} {scope : Scope} {sc : Typed.Scope},
      ctx.Tidy → Agrees ctx scope sc → Rivulet.Ty.allProper (ps.map Typed.Param.ty) = true →
      ∃ xs scope' ctx', Makes (Make.params scope ps) ctx (xs, scope') ctx' ∧ ctx.Le ctx' ∧
        ctx'.Tidy ∧ Agrees ctx' scope' (sc.withParams ps) ∧
        scope' = ((ps.map Typed.Param.name).zip xs).reverse ++ scope ∧
        (∀ x ∈ xs, ctx'.Knows x) ∧
        xs.map ctx'.typeOf = Ty.counterparts (ps.map Typed.Param.ty) ∧ xs.length = ps.length
  | [], ctx, scope, sc, hctx, hag, _ =>
      ⟨[], scope, ctx, Makes.pure _ _, .refl ctx, hctx, hag, rfl, by simp, rfl, rfl⟩
  | p :: ps, ctx, scope, sc, hctx, hag, hps => by
      simp only [List.map_cons, Rivulet.Ty.allProper, Bool.and_eq_true] at hps
      have hle₁ := ctx.le_declare p.name (Ty.counterpart p.ty)
      have hknows := ctx.knows_declare p.name (Ty.counterpart p.ty)
      have htype := ctx.typeOf_declare p.name (Ty.counterpart p.ty)
      obtain ⟨xs, scope', ctx', hmake, hle, htidy, hag', hscope, hknown, htypes, hlen⟩ :=
        makes_params ps (hctx.declare (Ty.hasInvalid_counterpart_of_proper hps.1))
          ((hag.mono hle₁).cons (x := p.name) hknows htype) hps.2
      refine ⟨(ctx.declare p.name (Ty.counterpart p.ty)).1 :: xs, scope', ctx', ?_,
        hle₁.trans hle, htidy, ?_, ?_, ?_, ?_, ?_⟩
      · refine (Makes.lift (Ty.ofTy_of_proper hps.1 p.span) ctx).bind ?_
        refine (makes_declare ctx p.name (Ty.counterpart p.ty)).bind ?_
        exact hmake.bind (Makes.pure _ _)
      · simpa [Typed.Scope.withParams, Typed.Param.entry] using hag'
      · simp [hscope]
      · simp only [List.mem_cons, forall_eq_or_imp]
        exact ⟨hle.knows hknows, hknown⟩
      · rw [List.map_cons, hle.typeOf hknows, htype, htypes]
        rfl
      · simp [hlen]

/-- Inside of a closure, parameters and captures are live. -/
theorem Lives.closure {scope : Scope} {names cs : List String} {xs ys : List LocalId}
    (hlen : xs.length = names.length)
    (hcs : List.Forall₂ (fun x y => scope.lookup x = some y) cs ys) :
    Lives ((names.zip xs).reverse ++ scope) (names ++ cs) (xs ++ ys) := by
  intro x hx y hy
  rw [List.lookup_append] at hy
  cases hl : (names.zip xs).reverse.lookup x with
  | some z =>
      rw [hl, Option.some_or, Option.some.injEq] at hy
      subst hy
      obtain ⟨l₁, l₂, heq, -⟩ := List.lookup_eq_some_iff.1 hl
      have hmem : (x, z) ∈ names.zip xs := by
        rw [← List.mem_reverse, heq]
        simp
      exact List.mem_append_left _ (List.of_mem_zip hmem).2
  | none =>
      rw [hl, Option.none_or] at hy
      -- no parameter has this name, so it is a capture
      have hnot : x ∉ names := by
        intro hmem
        rw [List.lookup_eq_none_iff] at hl
        obtain ⟨i, hi, rfl⟩ := List.mem_iff_getElem.1 hmem
        have hpair : (names[i], xs[i]) ∈ names.zip xs :=
          List.mem_iff_getElem.2 ⟨i, by simp [hi, hlen], by simp⟩
        simpa using hl _ (List.mem_reverse.2 hpair)
      have hxcs : x ∈ cs := (List.mem_append.1 hx).resolve_left hnot
      refine List.mem_append_right _ ?_
      induction hcs with
      | nil => cases hxcs
      | @cons c z _ _ hc _ ih =>
          rcases List.mem_cons.1 hxcs with rfl | hxcs
          · rw [hy, Option.some.injEq] at hc
            rw [hc]
            exact List.mem_cons_self
          · exact List.mem_cons_of_mem _ (ih (by simp [hxcs]) hxcs)

end Rivulet.Ir
