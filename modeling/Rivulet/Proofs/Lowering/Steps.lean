import Rivulet.Proofs.Code.GenerationSteps
import Rivulet.Proofs.Lowering.Outcome

set_option autoImplicit false

/-! # Steps of lowering

How a step of lowering that succeeds is taken apart (`Lowers`), and what every step leaves alone: the
locals that are in the table stay as they are, and all that is added are temporaries, whether it
succeeds or not (`Grows`). What a step adds are the locals from one size of the table up to the next,
which is all that later modules need to know about the numbers of temporaries. -/

namespace Rivulet.Ir

/-- One context extends another by temporaries. -/
structure Context.AddsTemps (ctx ctx' : Context) : Prop where
  le : ctx.Le ctx'
  temp : ∀ x, ¬ ctx.Knows x → ctx'.Knows x → ctx'.isTemp x = true

namespace Context.AddsTemps

variable {ctx ctx' ctx'' : Context}

theorem refl (ctx : Context) : ctx.AddsTemps ctx := ⟨.refl ctx, fun _ h h' => absurd h' h⟩

theorem isTemp_eq (h : ctx.AddsTemps ctx') {x : LocalId} (hx : ctx.Knows x) :
    ctx'.isTemp x = ctx.isTemp x := by
  obtain ⟨info, hi⟩ := Context.knows_iff.1 hx
  simp only [Context.isTemp, hi, h.le x info hi]

theorem trans (h : ctx.AddsTemps ctx') (h' : ctx'.AddsTemps ctx'') : ctx.AddsTemps ctx'' := by
  refine ⟨h.le.trans h'.le, fun x hx hx'' => ?_⟩
  by_cases hx' : ctx'.Knows x
  · rw [h'.isTemp_eq hx']
    exact h.temp x hx hx'
  · exact h'.temp x hx' hx''

theorem size_le (h : ctx.AddsTemps ctx') : ctx.locals.size ≤ ctx'.locals.size := by
  by_contra hlt
  have hknown : ctx.Knows ⟨ctx.locals.size - 1⟩ := by
    simp only [Context.Knows]
    omega
  have := h.le.knows hknown
  simp only [Context.Knows] at this
  omega

theorem freshTemp (ctx : Context) (hint : String) (t : Ty) :
    ctx.AddsTemps (ctx.freshTemp hint t).2 := by
  refine ⟨fun x info hx => ?_, fun x hx hx' => ?_⟩
  · have hlt : x.index < ctx.locals.size := Context.knows_iff.2 ⟨info, hx⟩
    simp only [Context.freshTemp, Context.get?, Array.getElem?_push] at hx ⊢
    rw [if_neg (by omega)]
    exact hx
  · have heq : x.index = ctx.locals.size := by
      simp only [Context.Knows, Context.freshTemp, Array.size_push] at hx hx'
      omega
    simp [Context.isTemp, Context.get?, Context.freshTemp, heq]

end Context.AddsTemps

namespace Lowering

/-! ## Success -/

/-- A step succeeds, with a value and a new state. -/
def Lowers {α : Type} (x : Lower α) (st : State) (a : α) (st' : State) : Prop :=
  x.run.run st = (.ok a, st')

namespace Lowers

variable {α β : Type} {x : Lower α} {f : α → Lower β} {a : α} {b : β} {st st' st'' : State}

theorem pure_inv {c : α} (h : Lowers (pure c) st a st') : c = a ∧ st' = st := by
  have heq : ((Except.ok c, st) : Except Breach α × State) = (.ok a, st') := h
  simp only [Prod.mk.injEq, Except.ok.injEq] at heq
  exact ⟨heq.1, heq.2.symm⟩

theorem bind (h : Lowers x st a st') (h' : Lowers (f a) st' b st'') :
    Lowers (x >>= f) st b st'' := by
  unfold Lowers at *
  rw [ExceptT.run_bind, StateT.run_bind, h]
  exact h'

/-- A sequence of steps that succeeds, taken apart. -/
theorem bind_inv (h : Lowers (x >>= f) st b st'') :
    ∃ a st', Lowers x st a st' ∧ Lowers (f a) st' b st'' := by
  unfold Lowers at *
  rw [ExceptT.run_bind, StateT.run_bind] at h
  cases hx : x.run.run st with
  | mk r st' =>
      rw [hx] at h
      cases r with
      | error e => cases h
      | ok a => exact ⟨a, st', rfl, h⟩

theorem lift_inv {x : Except Breach α} (h : Lowers (liftM x) st a st') : x = .ok a ∧ st' = st := by
  cases x with
  | error e => cases h
  | ok b =>
      obtain ⟨rfl, hst⟩ := pure_inv (c := b) h
      exact ⟨rfl, hst⟩

end Lowers

/-! ## The table of locals -/

/-- The number of locals so far. -/
def State.size (st : State) : Nat := st.ctx.locals.size

/-- A step adds temporaries to the table and changes nothing else in it. -/
def Grows {α : Type} (x : Lower α) : Prop := ∀ st : State, st.ctx.AddsTemps (x.run.run st).2.ctx

namespace Grows

variable {α β : Type} {x : Lower α} {f : α → Lower β}

theorem pure (a : α) : Grows (pure a) := fun st => .refl st.ctx

theorem bind (hx : Grows x) (hf : ∀ a, Grows (f a)) : Grows (x >>= f) := by
  intro st
  have hst := hx st
  rw [ExceptT.run_bind, StateT.run_bind]
  cases hr : x.run.run st with
  | mk r st' =>
      rw [hr] at hst
      cases r with
      | error e => exact hst
      | ok a => exact hst.trans (hf a st')

end Grows

theorem respected_addsTemps : Respected Context.AddsTemps where
  refl := .refl
  trans := .trans
  freshTemp ctx hint t _ := .freshTemp ctx hint t

theorem Ends.grows {α : Type} {x : Lower α} {b : Option Breach}
    (h : Ends Context.AddsTemps x b) : Grows x := fun st => (h st).1

theorem Lowers.addsTemps {α : Type} {x : Lower α} {a : α} {st st' : State} (h : Lowers x st a st')
    (hx : Grows x) : st.ctx.AddsTemps st'.ctx := by
  have hst := hx st
  rw [show x.run.run st = (.ok a, st') from h] at hst
  exact hst

theorem Lowers.size_le {α : Type} {x : Lower α} {a : α} {st st' : State} (h : Lowers x st a st')
    (hx : Grows x) : st.size ≤ st'.size :=
  (h.addsTemps hx).size_le

/-! ### Temporaries -/

theorem grows_freshTemp (hint : String) (t : Ty) : Grows (freshTemp hint t) :=
  fun st => .freshTemp st.ctx hint t

theorem grows_bindTemp (hint : String) (e : Expr) : Grows (bindTemp hint e) :=
  .bind (grows_freshTemp hint e.ty) fun _ => .pure _

theorem freshTemp_inv {hint : String} {t : Ty} {x : LocalId} {st st' : State}
    (h : Lowers (freshTemp hint t) st x st') : x.index = st.size ∧ st'.size = st.size + 1 := by
  have heq : ((Except.ok (st.ctx.freshTemp hint t).1, { st with ctx := (st.ctx.freshTemp hint t).2 })
      : Except Breach LocalId × State) = (.ok x, st') := h
  simp only [Prod.mk.injEq, Except.ok.injEq] at heq
  obtain ⟨rfl, rfl⟩ := heq
  exact ⟨rfl, by simp [State.size, Context.freshTemp]⟩

theorem bindTemp_inv {hint : String} {e : Expr} {p : Stmt × Expr} {st st' : State}
    (h : Lowers (bindTemp hint e) st p st') :
    ∃ x, p = (.bind x e, .local x e.info) ∧ x.index = st.size ∧ st'.size = st.size + 1 := by
  obtain ⟨x, st₁, hx, h⟩ := h.bind_inv
  obtain ⟨rfl, rfl⟩ := h.pure_inv
  obtain ⟨hi, hs⟩ := freshTemp_inv hx
  exact ⟨x, rfl, hi, hs⟩

/-- The temporaries of a short circuit and of a map, and what is made of them. -/
theorem shortCircuit_inv {op : BinaryOp} {l r : Expr} {h : List Stmt} {q : Hoisted Expr}
    {st st' : State} (hs : Lowers (shortCircuit op l h r) st q st') :
    ∃ x, x.index = st.size ∧ st'.size = st.size + 1 ∧
      q = ([.bind x l, .if (if op = .and then .local x ⟨.bool, l.span⟩
        else negate (.local x ⟨.bool, l.span⟩)) (h ++ [.assign x r]) []],
        .local x ⟨.bool, l.span⟩) := by
  obtain ⟨x, st₁, hx, hs⟩ := hs.bind_inv
  obtain ⟨rfl, rfl⟩ := hs.pure_inv
  obtain ⟨hi, hsize⟩ := freshTemp_inv hx
  exact ⟨x, hi, hsize, rfl⟩

theorem mapLoop_inv {site : Site} {result element : Ty} {i : Info} {seq fn : Expr} {q : Hoisted Expr}
    {st st' : State} (hl : Lowers (mapLoop site result element i seq fn) st q st') :
    ∃ xl xo x jl jo, xl.index = st.size ∧ xo.index = st.size + 1 ∧ x.index = st.size + 2 ∧
      st'.size = st.size + 3 ∧
      q = ([.bind xl (.len seq ⟨.i64, i.span⟩), .bind xo (.alloc result (.local xl jl) site i),
        .for x (.const (.int 0) ⟨.i64, i.span⟩) (.local xl jl)
          [.store (.local xo jo) (.local x ⟨.i64, i.span⟩)
            (.call fn [.index seq (.local x ⟨.i64, i.span⟩) .elided ⟨element, i.span⟩]
              ⟨result, i.span⟩) .elided]], .local xo jo) := by
  obtain ⟨_, st₁, hlen, hl⟩ := hl.bind_inv
  obtain ⟨_, st₂, hout, hl⟩ := hl.bind_inv
  obtain ⟨x, st₃, hx, hl⟩ := hl.bind_inv
  obtain ⟨u, st₄, hcount, hl⟩ := hl.bind_inv
  obtain ⟨rfl, rfl⟩ := hl.pure_inv
  obtain ⟨xl, rfl, hxl, hsize₁⟩ := bindTemp_inv hlen
  obtain ⟨xo, rfl, hxo, hsize₂⟩ := bindTemp_inv hout
  obtain ⟨hxi, hsize₃⟩ := freshTemp_inv hx
  have hsize₄ : st'.size = st₃.size := by
    have heq : ((Except.ok (), { st₃ with lowered := st₃.lowered + 1 }) : Except Breach Unit × State)
        = (.ok u, st') := hcount
    simp only [Prod.mk.injEq] at heq
    rw [← heq.2]
    rfl
  exact ⟨xl, xo, x, _, _, hxl, by omega, by omega, by omega, rfl⟩

/-! ### Spilling -/

theorem grows_spillBefore (later : List Stmt) (e : Expr) : Grows (spillBefore later e) :=
  (ends_spillBefore respected_addsTemps later e).grows

theorem grows_spillAllBefore (later : List Stmt) (es : List Expr) :
    Grows (spillAllBefore later es) :=
  (ends_spillAllBefore respected_addsTemps later es).grows

/-- The two ways to spill an expression if need be: it stays as it is, because nothing comes after it
or because it is stable, or else a temporary is bound to it. -/
theorem spillBefore_steps {later : List Stmt} {e e' : Expr} {s : List Stmt} {st st' : State}
    (h : Lowers (spillBefore later e) st (s, e') st') :
    (s = [] ∧ e' = e ∧ st' = st ∧ (later = [] ∨ isStable st.ctx e = true)) ∨
      ∃ b, s = [b] ∧ Lowers (bindTemp "spill" e) st (b, e') st' ∧ later ≠ [] ∧
        isStable st.ctx e = false := by
  unfold spillBefore at h
  split at h
  · rename_i hempty
    obtain ⟨heq, rfl⟩ := h.pure_inv
    cases heq
    exact .inl ⟨rfl, rfl, rfl, .inl (List.isEmpty_iff.1 hempty)⟩
  · rename_i hempty
    obtain ⟨st₁, st₂, hget, hnext⟩ := h.bind_inv
    have hst : st₁ = st ∧ st₂ = st := by
      have heq : ((Except.ok st, st) : Except Breach State × State) = (.ok st₁, st₂) := hget
      simp only [Prod.mk.injEq, Except.ok.injEq] at heq
      exact ⟨heq.1.symm, heq.2.symm⟩
    obtain ⟨rfl, rfl⟩ := hst
    split at hnext
    · rename_i hstable
      obtain ⟨heq, rfl⟩ := hnext.pure_inv
      cases heq
      exact .inl ⟨rfl, rfl, rfl, .inr hstable⟩
    · rename_i hstable
      obtain ⟨⟨b, d⟩, st₃, hp, hnext⟩ := hnext.bind_inv
      obtain ⟨heq, rfl⟩ := hnext.pure_inv
      cases heq
      exact .inr ⟨b, rfl, hp, fun h => hempty (List.isEmpty_iff.2 h), Bool.eq_false_iff.2 hstable⟩

/-- What becomes of an expression that is spilled if need be: it stays as it is, because nothing
comes after it or because it is stable, or else it moves to a new temporary. -/
theorem spillBefore_inv {later : List Stmt} {e e' : Expr} {s : List Stmt} {st st' : State}
    (h : Lowers (spillBefore later e) st (s, e') st') :
    (s = [] ∧ e' = e ∧ st' = st ∧ (later = [] ∨ isStable st.ctx e = true)) ∨
      ∃ x, s = [.bind x e] ∧ e' = .local x e.info ∧ x.index = st.size ∧
        st'.size = st.size + 1 ∧ later ≠ [] ∧ isStable st.ctx e = false := by
  rcases spillBefore_steps h with hstays | ⟨b, rfl, hbind, hlater, hstable⟩
  · exact .inl hstays
  · obtain ⟨x, heq, hi, hs⟩ := bindTemp_inv hbind
    cases heq
    exact .inr ⟨x, rfl, rfl, hi, hs, hlater, hstable⟩

theorem spillAllBefore_cons_inv {later : List Stmt} {e : Expr} {es es' : List Expr} {s : List Stmt}
    {st st' : State} (h : Lowers (spillAllBefore later (e :: es)) st (s, es') st') :
    ∃ s₁ e₁ st₁ s₂ es₂, Lowers (spillBefore later e) st (s₁, e₁) st₁ ∧
      Lowers (spillAllBefore later es) st₁ (s₂, es₂) st' ∧ s = s₁ ++ s₂ ∧ es' = e₁ :: es₂ := by
  obtain ⟨⟨s₁, e₁⟩, st₁, h₁, h⟩ := h.bind_inv
  obtain ⟨⟨s₂, es₂⟩, st₂, h₂, h⟩ := h.bind_inv
  obtain ⟨heq, rfl⟩ := h.pure_inv
  cases heq
  exact ⟨s₁, e₁, st₁, s₂, es₂, h₁, h₂, rfl, rfl⟩

/-- Nothing is spilled if no statements come later. -/
theorem spillAllBefore_nil_inv :
    ∀ {es es' : List Expr} {s : List Stmt} {st st' : State},
      Lowers (spillAllBefore [] es) st (s, es') st' → s = [] ∧ es' = es ∧ st' = st
  | [], es', s, st, st', h => by
      obtain ⟨heq, rfl⟩ := h.pure_inv
      cases heq
      exact ⟨rfl, rfl, rfl⟩
  | e :: es, es', s, st, st', h => by
      obtain ⟨s₁, e₁, st₁, s₂, es₂, h₁, h₂, rfl, rfl⟩ := spillAllBefore_cons_inv h
      obtain ⟨heq, rfl⟩ := Lowers.pure_inv (c := ([], e)) h₁
      cases heq
      obtain ⟨rfl, rfl, rfl⟩ := spillAllBefore_nil_inv h₂
      exact ⟨rfl, rfl, rfl⟩

theorem length_of_spillAllBefore {later : List Stmt} :
    ∀ {es es' : List Expr} {s : List Stmt} {st st' : State},
      Lowers (spillAllBefore later es) st (s, es') st' → es'.length = es.length
  | [], es', s, st, st', h => by
      obtain ⟨heq, -⟩ := h.pure_inv
      cases heq
      rfl
  | e :: es, es', s, st, st', h => by
      obtain ⟨s₁, e₁, st₁, s₂, es₂, -, h₂, -, rfl⟩ := spillAllBefore_cons_inv h
      rw [List.length_cons, List.length_cons, length_of_spillAllBefore h₂]

/-- No expression gets lost. -/
theorem length_of_exprs : ∀ {es done all : List Expr} {h : List Stmt} {st st' : State},
    Lowers (exprs done es) st (h, all) st' → all.length = done.length + es.length
  | [], done, all, h, st, st', hl => by
      obtain ⟨heq, -⟩ := hl.pure_inv
      cases heq
      rfl
  | e :: es, done, all, h, st, st', hl => by
      obtain ⟨⟨h₁, d₁⟩, st₁, -, hl⟩ := hl.bind_inv
      obtain ⟨⟨s, ds⟩, st₂, hs, hl⟩ := hl.bind_inv
      obtain ⟨⟨h₃, all'⟩, st₃, hrest, hl⟩ := hl.bind_inv
      obtain ⟨heq, -⟩ := hl.pure_inv
      cases heq
      have hlen := length_of_spillAllBefore hs
      rw [length_of_exprs hrest, List.length_append, hlen, List.length_singleton, List.length_cons]
      omega

/-! ### Every step keeps the table -/

theorem grows_shortCircuit (op : BinaryOp) (l : Expr) (h : List Stmt) (r : Expr) :
    Grows (shortCircuit op l h r) := (ends_shortCircuit respected_addsTemps op l h r).grows

theorem grows_mapLoop (site : Site) (t u : Ty) (i : Info) (seq fn : Expr) :
    Grows (mapLoop site t u i seq fn) := (ends_mapLoop respected_addsTemps site t u i seq fn).grows

theorem grows_expr (e : Expr) : Grows (expr e) := (ends_expr respected_addsTemps e).grows

theorem grows_exprs (done es : List Expr) : Grows (exprs done es) :=
  (ends_exprs respected_addsTemps done es).grows

theorem grows_stmt (s : Stmt) : Grows (stmt s) := (ends_stmt respected_addsTemps s).grows

theorem grows_block (ss : List Stmt) : Grows (block ss) := (ends_block respected_addsTemps ss).grows

/-! ### Operators -/

variable {l r : Expr} {common : Option Ty} {facts : Option MapFacts} {i : Info}

/-- The steps of lowering a map: either operand is bound to a temporary as soon as it is lowered, and
the loop runs over these two. -/
inductive MapSteps (l r : Expr) (facts : Option MapFacts) (i : Info) (st : State) :
    Hoisted Expr → State → Prop
  | intro {f : MapFacts} {result element : Ty} {h₁ h₂ h₃ : List Stmt} {dl dr out : Expr}
      {xs xf : LocalId} {st₁ st₂ st₃ st₄ st' : State}
      (hparts : mapParts l facts i = .ok (f, result, element))
      (hl : Lowers (expr l) st (h₁, dl) st₁)
      (hseq : Lowers (bindTemp "seq" dl) st₁ (.bind xs dl, .local xs dl.info) st₂)
      (hr : Lowers (expr r) st₂ (h₂, dr) st₃)
      (hfn : Lowers (bindTemp "fn" dr) st₃ (.bind xf dr, .local xf dr.info) st₄)
      (hloop : Lowers (mapLoop f.result result element i (.local xs dl.info) (.local xf dr.info))
        st₄ (h₃, out) st') :
      MapSteps l r facts i st (h₁ ++ [.bind xs dl] ++ h₂ ++ [.bind xf dr] ++ h₃, out) st'

theorem map_steps {q : Hoisted Expr} {st st' : State}
    (h : Lowers (expr (.binary .map l r common facts i)) st q st') : MapSteps l r facts i st q st' := by
  unfold expr at h
  rw [if_pos rfl] at h
  obtain ⟨⟨f, result, element⟩, st₀, hlift, h⟩ := h.bind_inv
  obtain ⟨⟨h₁, dl⟩, st₁, hl, h⟩ := h.bind_inv
  obtain ⟨_, st₂, hseq, h⟩ := h.bind_inv
  obtain ⟨xs, rfl, -, -⟩ := bindTemp_inv hseq
  obtain ⟨⟨h₂, dr⟩, st₃, hr, h⟩ := h.bind_inv
  obtain ⟨_, st₄, hfn, h⟩ := h.bind_inv
  obtain ⟨xf, rfl, -, -⟩ := bindTemp_inv hfn
  obtain ⟨⟨h₃, out⟩, st₅, hloop, h⟩ := h.bind_inv
  obtain ⟨rfl, rfl⟩ := h.pure_inv
  obtain ⟨hparts, rfl⟩ := hlift.lift_inv
  exact .intro hparts hl hseq hr hfn hloop

/-- The steps of lowering an operator other than a map. A short circuit stays if its right operand
hoists nothing and becomes a conditional statement if it does; any other operator stays, and its left
operand is spilled before what the right one hoists. -/
inductive OperatorSteps (op : BinaryOp) (l r : Expr) (common : Option Ty) (facts : Option MapFacts)
    (i : Info) (st : State) : Hoisted Expr → State → Prop
  | logical {h : List Stmt} {dl dr : Expr} {st₁ st' : State} (hop : op = .and ∨ op = .or)
      (hl : Lowers (expr l) st (h, dl) st₁) (hr : Lowers (expr r) st₁ ([], dr) st') :
      OperatorSteps op l r common facts i st (h, .binary op dl dr common facts i) st'
  | shortCircuit {h₁ h₂ h₃ : List Stmt} {dl dr e : Expr} {st₁ st₂ st' : State}
      (hop : op = .and ∨ op = .or) (hl : Lowers (expr l) st (h₁, dl) st₁)
      (hr : Lowers (expr r) st₁ (h₂, dr) st₂)
      (hs : Lowers (shortCircuit op dl h₂ dr) st₂ (h₃, e) st') :
      OperatorSteps op l r common facts i st (h₁ ++ h₃, e) st'
  | strict {h₁ h₂ s : List Stmt} {dl dl' dr : Expr} {st₁ st₂ st' : State}
      (hop : ¬ (op = .and ∨ op = .or)) (hl : Lowers (expr l) st (h₁, dl) st₁)
      (hr : Lowers (expr r) st₁ (h₂, dr) st₂) (hs : Lowers (spillBefore h₂ dl) st₂ (s, dl') st') :
      OperatorSteps op l r common facts i st (h₁ ++ s ++ h₂, .binary op dl' dr common facts i) st'

theorem operator_steps {op : BinaryOp} (hmap : op ≠ .map) {q : Hoisted Expr} {st st' : State}
    (h : Lowers (expr (.binary op l r common facts i)) st q st') :
    OperatorSteps op l r common facts i st q st' := by
  unfold expr at h
  rw [if_neg hmap] at h
  obtain ⟨⟨h₁, dl⟩, st₁, hl, h⟩ := h.bind_inv
  obtain ⟨⟨h₂, dr⟩, st₂, hr, h⟩ := h.bind_inv
  dsimp only at h
  split at h
  · rename_i hop
    split at h
    · rename_i hempty
      obtain rfl := List.isEmpty_iff.1 hempty
      obtain ⟨rfl, rfl⟩ := h.pure_inv
      exact .logical hop hl hr
    · obtain ⟨⟨h₃, e⟩, st₃, hs, h⟩ := h.bind_inv
      obtain ⟨rfl, rfl⟩ := h.pure_inv
      exact .shortCircuit hop hl hr hs
  · rename_i hop
    obtain ⟨⟨s, dl'⟩, st₃, hs, h⟩ := h.bind_inv
    obtain ⟨rfl, rfl⟩ := h.pure_inv
    exact .strict hop hl hr hs

end Lowering

/-! ## Functions and modules -/

/-- If several functions are lowered, so is the first, and so are the others. -/
theorem Lowering.functions_cons_ok {f : Function} {fs gs : List Function} {n : Nat}
    (h : functions Function.lower (f :: fs) = (.ok n, gs)) :
    ∃ k f' n' fs', f.lower = (.ok k, f') ∧ functions Function.lower fs = (.ok n', fs') ∧
      n = k + n' ∧ gs = f' :: fs' := by
  unfold functions at h
  split at h
  · cases h
  · rename_i k f' hf
    cases hrest : functions Function.lower fs with
    | mk r fs' =>
        rw [hrest] at h
        cases r with
        | error e => cases h
        | ok n' =>
            cases h
            exact ⟨k, f', n', fs', hf, rfl, rfl, rfl⟩

/-- Lowering functions lowers every one of them. -/
theorem Lowering.forall₂_of_functions {R : Function → Function → Prop} {fs gs : List Function}
    {n : Nat} (hR : ∀ f ∈ fs, ∀ k f', f.lower = (.ok k, f') → R f f')
    (h : functions Function.lower fs = (.ok n, gs)) : List.Forall₂ R fs gs := by
  induction fs generalizing gs n with
  | nil =>
      cases h
      exact .nil
  | cons f fs ih =>
      obtain ⟨k, f', n', fs', hf, hrest, -, rfl⟩ := functions_cons_ok h
      exact .cons (hR f (by simp) k f' hf) (ih (fun g hg => hR g (List.mem_cons_of_mem _ hg)) hrest)

/-- Lowering a module lowers every function. -/
theorem Module.forall₂_of_lower {R : Function → Function → Prop} {m m' : Module} {n : Nat}
    (hR : ∀ f ∈ m.functions, ∀ k f', f.lower = (.ok k, f') → R f f') (h : m.lower = (.ok n, m')) :
    List.Forall₂ R m.functions m'.functions := by
  unfold Module.lower at h
  simp only [Prod.mk.injEq] at h
  obtain ⟨hr, rfl⟩ := h
  exact Lowering.forall₂_of_functions hR (Prod.ext hr rfl)

end Rivulet.Ir
