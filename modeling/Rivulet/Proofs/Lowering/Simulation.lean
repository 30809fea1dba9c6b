import Rivulet.Proofs.Lowering.Blocks

set_option autoImplicit false

/-! # Lowered code goes side by side with the code it comes from

One lemma for each constructor (`GoesAlong`), and one walk over well-typed code that puts them
together. An expression without parts is lowered to itself; an expression with operands is lowered by
lowering the operands, and does the same operation on both sides; maps and short circuits are the two
expressions that become statements. The bodies of closures are not looked into: they are compared when
they are called. -/

namespace Rivulet.Machine

open Ir Lowering
open Validate (Scene)

variable {sigs : Validate.Signatures} {bound : Nat} {m m' : Engine} {temps : Set Nat}
  {st st' : State}

/-! ## Operations on operands -/

/-- A unary operator on a list of operands. -/
def applyUnary (op : UnaryOp) : List Value → Run Value
  | [v] => unary op v
  | _ => pure .unit

/-- A binary operator on a list of operands. -/
def applyBinary (op : BinaryOp) : List Value → Run Value
  | [v, w] => binary op v w
  | _ => pure .unit

/-- A subscript on a list of operands. -/
def applyIndex (b : Bounds) : List Value → Run Value
  | [v, w] => do
      let i ← asInt w
      let a ← asSlice v
      let n ← Run.sliceLength a
      let k ← position i n b
      Run.readItem a k
  | _ => pure .unit

/-- A call on the callee and its arguments. -/
def applyCall (m : Engine) : List Value → Run Value
  | f :: vs => m.call f vs
  | [] => pure .unit

section Apply

variable {p : Pairing} {s t : Store} {vs ws : List Value} (hs : s.Paired sigs p t)
  (hvs : PairedValues sigs p vs ws)

include hs hvs

theorem applyUnary_beside (op : UnaryOp) :
    Beside sigs p t (fun q _ v w => v.Paired sigs q w) (applyUnary op vs s) (applyUnary op ws t) := by
  cases hvs with
  | nil => exact .pure hs rfl
  | cons hvw hvs =>
      cases hvs with
      | nil => exact unary_beside hs hvw
      | cons _ _ => exact .pure hs rfl

theorem applyBinary_beside (op : BinaryOp) :
    Beside sigs p t (fun q _ v w => v.Paired sigs q w) (applyBinary op vs s)
      (applyBinary op ws t) := by
  cases hvs with
  | nil => exact .pure hs rfl
  | cons hvw hvs =>
      cases hvs with
      | nil => exact .pure hs rfl
      | cons hvw' hvs =>
          cases hvs with
          | nil => exact binary_beside hs hvw hvw'
          | cons _ _ => exact .pure hs rfl

theorem applyIndex_beside (b : Bounds) :
    Beside sigs p t (fun q _ v w => v.Paired sigs q w) (applyIndex b vs s) (applyIndex b ws t) := by
  cases hvs with
  | nil => exact .pure hs rfl
  | cons hvw hvs =>
      cases hvs with
      | nil => exact .pure hs rfl
      | cons hvw' hvs =>
          cases hvs with
          | nil => exact index_beside hs hvw hvw'
          | cons _ _ => exact .pure hs rfl

theorem applyCall_beside (hm : Engine.Beside sigs m m') :
    Beside sigs p t (fun q _ v w => v.Paired sigs q w) (applyCall m vs s) (applyCall m' ws t) := by
  cases hvs with
  | nil => exact .pure hs rfl
  | cons hfg hvs => exact hm.call hs hfg hvs

end Apply

/-- An expression without operands. -/
theorem ExprLowered.atom {e : Expr} (hbelow : Expr.LocalBelow st.size e)
    (he : ∀ {p : Pairing} {s t : Store} {fr fr' : Frame}, s.Paired sigs p t →
      Frame.Paired bound p t fr fr' →
      Beside sigs p t (fun q _ v w => v.Paired sigs q w) (eval m fr e s) (eval m' fr' e t)) :
    ExprLowered sigs bound m m' st st e [] e := by
  refine ⟨Simulates.nil.compose (f := fun fr _ => eval m fr e) (g := fun fr _ => eval m' fr e)
    (fun fr => ?_) (fun fr => ?_) fun hs hfr _ => he hs hfr, hbelow⟩
  · simp only [evalList, pure_bind]
  · simp only [evalList, pure_bind]

/-- A new closure. -/
def makeClosure (ps cs : List LocalId) (b : List Stmt) (fr : Frame) : Run Value := do
  let env ← captureCells fr cs
  let i ← Run.newClosure
  pure (.func (.closure i ps b env))

/-- Closures with paired captures. -/
theorem closure_beside {ctx : Context} {ps cs : List LocalId} {rs : List Ir.Ty} {b b' : List Stmt}
    (hb : BodyLowers sigs ctx rs (ps ++ cs) b b') (hcs : ∀ x ∈ cs, x.index < bound)
    {p : Pairing} {s t : Store} {fr fr' : Frame} (hs : s.Paired sigs p t)
    (hfr : Frame.Paired bound p t fr fr') :
    Beside sigs p t (fun q _ v w => v.Paired sigs q w) (makeClosure ps cs b fr s)
      (makeClosure ps cs b' fr' t) := by
  refine Beside.bind (captureCells_beside hcs hs hfr) ?_
  rintro q s₁ t₁ env env' - hs₁ ⟨henv, hfst⟩
  refine ⟨.func (.closure t₁.closures ps b' env'), { t₁ with closures := t₁.closures + 1 }, q, rfl,
    (Advances.refl q t₁).congr rfl rfl, hs₁.congr rfl rfl rfl rfl ?_ hs₁.output, _, rfl,
    hs₁.closures, rfl, ⟨ctx, rs, ?_⟩, henv⟩
  · simp only [hs₁.closures]
  · rw [hfst]
    exact hb

/-! ## Maps and short circuits -/

section Binary

variable {ctx : Context} {st₁ st₂ st₃ st₄ : State} {l r dl dr e : Expr} {h₁ h₂ h₃ : List Stmt}
  {common : Option Ir.Ty} {facts : Option MapFacts} {i : Info}

/-- A map becomes a loop: its operands are settled in temporaries, one after the other. -/
theorem ExprLowered.map (hm : Engine.Beside sigs m m') (hbound : bound ≤ st.size)
    (hl : ExprLowered sigs bound m m' st st₁ l h₁ dl) {xs : LocalId} {js : Info}
    (hxs : xs.index = st₁.size) (hst₂ : st₂.size = st₁.size + 1)
    (hr : ExprLowered sigs bound m m' st₂ st₃ r h₂ dr) {xf : LocalId} {jf : Info}
    (hxf : xf.index = st₃.size) (hst₄ : st₄.size = st₃.size + 1) (hst : st.size ≤ st₁.size)
    (hst₃ : st₂.size ≤ st₃.size) {site : Site} {result element : Ir.Ty}
    (hloop : Lowers (mapLoop site result element i (.local xs js) (.local xf jf)) st₄ (h₃, e) st') :
    ExprLowered sigs bound m m' st st' (.binary .map l r common facts i)
      (h₁ ++ [.bind xs dl] ++ h₂ ++ [.bind xf dr] ++ h₃) e := by
  obtain ⟨xl, xo, x, jl, jo, hxl, hxo, hx, hsize, heq⟩ := mapLoop_inv hloop
  cases heq
  have hseq := hl.simulates.bind (x := xs) (by omega) js
  have hfn := hr.simulates.bind (x := xf) (by omega) jf
  have hseq' : Pinned sigs bound m m' (Set.Ico st.size st₄.size) [l] (h₁ ++ [.bind xs dl])
      [.local xs js] := by
    refine hseq.mono fun k hk => ?_
    simp only [Set.mem_union, Set.mem_singleton_iff, Set.mem_Ico] at hk ⊢
    omega
  have hfn' : Pinned sigs bound m m' (Set.Ico st₂.size st₄.size) [r] (h₂ ++ [.bind xf dr])
      [.local xf jf] := by
    refine hfn.mono fun k hk => ?_
    simp only [Set.mem_union, Set.mem_singleton_iff, Set.mem_Ico] at hk ⊢
    omega
  -- the temporary of the sequence is older than all that the callable binds
  have hold : ∀ d ∈ [Expr.local xs js], Expr.Pin bound (Set.Ico st₂.size st₄.size) d := by
    intro d hd
    rw [List.mem_singleton.1 hd]
    refine ⟨by omega, ?_⟩
    simp only [Set.mem_Ico]
    omega
  have hoperands := hseq'.append hfn' (Set.Ico_subset_Ico_left (by omega)) hold
  have hsub : Set.Ico st.size st₄.size ∪ {xl.index, xo.index, x.index}
      ⊆ Set.Ico st.size st'.size := by
    intro k hk
    simp only [Set.mem_union, Set.mem_insert_iff, Set.mem_singleton_iff, Set.mem_Ico] at hk ⊢
    omega
  refine ⟨?_, ?_⟩
  · rw [List.append_assoc _ h₂]
    refine Pinned.simulates (Pinned.mono ?_ hsub)
    exact Pinned.map hm hoperands (by omega) (by omega) (by omega) (by omega) (by omega)
  · intro y j hy
    cases hy
    omega

/-- What `&&` and `||` do after the left operand. -/
def applyLogical (op : BinaryOp) (right : Run Value) : List Value → Run Value
  | [v] => do
      let b ← asBool v
      if needsRight op b then
        let w ← right
        let c ← asBool w
        pure (.bool c)
      else pure (.bool b)
  | _ => pure .unit

theorem eval_eq_applyLogical {op : BinaryOp} (hop : op = .and ∨ op = .or) (m : Engine) (fr : Frame)
    (l r : Expr) (common : Option Ir.Ty) (facts : Option MapFacts) (i : Info) :
    eval m fr (.binary op l r common facts i)
      = evalList m fr [l] >>= applyLogical op (eval m fr r) := by
  simp only [eval_logical hop, evalList, applyLogical, bind_assoc, pure_bind]

theorem applyLogical_beside {p : Pairing} {s t : Store} {vs ws : List Value} {right right' : Run Value}
    (hs : s.Paired sigs p t) (hvs : PairedValues sigs p vs ws) (op : BinaryOp)
    (hright : ∀ {q : Pairing} {s t₁ : Store}, Advances p t q t₁ → s.Paired sigs q t₁ →
      Beside sigs q t₁ (fun q _ v w => v.Paired sigs q w) (right s) (right' t₁)) :
    Beside sigs p t (fun q _ v w => v.Paired sigs q w) (applyLogical op right vs s)
      (applyLogical op right' ws t) := by
  cases hvs with
  | nil => exact .pure hs rfl
  | cons hvw hvs =>
      cases hvs with
      | cons _ _ => exact .pure hs rfl
      | nil =>
          refine Beside.bind (asBool_beside hs hvw) ?_
          rintro q s₁ t₁ b _ hadv hs₁ ⟨rfl, -⟩
          cases needsRight op b with
          | false => exact .pure hs₁ rfl
          | true =>
              refine Beside.bind (hright hadv hs₁) ?_
              rintro q₂ s₂ t₂ v w - hs₂ hvw
              refine Beside.bind (asBool_beside hs₂ hvw) ?_
              rintro q₃ s₃ t₃ c _ - hs₃ ⟨rfl, -⟩
              exact .pure hs₃ rfl

/-- A short circuit whose right operand hoists nothing stays as it is. -/
theorem ExprLowered.logical {op : BinaryOp} (hop : op = .and ∨ op = .or)
    (hl : ExprLowered sigs bound m m' st st₁ l h₁ dl)
    (hr : ExprLowered sigs bound m m' st₁ st' r [] dr) (hst : st₁.size ≤ st'.size) :
    ExprLowered sigs bound m m' st st' (.binary op l r common facts i) h₁
      (.binary op dl dr common facts i) := by
  refine ⟨Simulates.compose (hl.simulates.mono (Set.Ico_subset_Ico_right hst))
    (eval_eq_applyLogical hop m · l r common facts i)
    (eval_eq_applyLogical hop m' · dl dr common facts i) fun {p s t fr fr' vs ws} hs hfr hvs =>
      applyLogical_beside hs hvs op fun {q s₁ t₁} hadv hs₁ => ?_, by intro x j hx; cases hx⟩
  have hrun := hr.simulates.run_one hs₁ (hfr.advance hadv)
  simp only [runHoisted_nil, pure_bind] at hrun
  have heq : eval m' fr' dr = (eval m' fr' dr >>= fun w => pure (w, fr')) >>= fun r => pure r.1 := by
    simp only [bind_assoc, pure_bind, bind_pure]
  rw [heq, ← bind_pure (eval m fr r)]
  refine Beside.bind hrun ?_
  rintro q₂ s₂ t₂ v ⟨w, fr₂⟩ - hs₂ ⟨-, -, hvw⟩
  exact .pure hs₂ hvw

/-- A short circuit whose right operand hoists something becomes a conditional statement. -/
theorem ExprLowered.shortCircuit {op : BinaryOp} (hop : op = .and ∨ op = .or)
    (hbound : bound ≤ st.size) (hl : ExprLowered sigs bound m m' st st₁ l h₁ dl)
    (hr : ExprLowered sigs bound m m' st₁ st₂ r h₂ dr) (hst : st.size ≤ st₁.size)
    (hst₂ : st₁.size ≤ st₂.size)
    (hs : Lowers (Lowering.shortCircuit op dl h₂ dr) st₂ (h₃, e) st') :
    ExprLowered sigs bound m m' st st' (.binary op l r common facts i) (h₁ ++ h₃) e := by
  obtain ⟨x, hx, hsize, heq⟩ := shortCircuit_inv hs
  cases heq
  have hpin := Pinned.shortCircuit hop hl.simulates hr.simulates (x := x) (by omega)
    (by simp only [Set.mem_Ico]; omega)
    (show _ ⊆ Set.Ico st.size st'.size from Set.Ico_subset_Ico_right (by omega))
    (Set.Ico_subset_Ico (by omega) (by omega)) (by simp only [Set.mem_Ico]; omega) common facts i
    ⟨.bool, dl.span⟩
  refine ⟨hpin.simulates, ?_⟩
  intro y j hy
  cases hy
  omega

theorem eval_plain {op : BinaryOp} (hmap : op ≠ .map) (hop : ¬ (op = .and ∨ op = .or)) (m : Engine)
    (fr : Frame) (l r : Expr) (common : Option Ir.Ty) (facts : Option MapFacts) (i : Info) :
    eval m fr (.binary op l r common facts i) = evalList m fr [l, r] >>= applyBinary op := by
  simp only [eval_operator hmap hop, evalList, bind_assoc, pure_bind, applyBinary]

end Binary

/-! ## Expressions -/

section Expressions

/-- What lowering makes of an expression goes side by side with it, from every table on that extends
that of the function by temporaries. -/
def GoesAlong (sc : Scene) (m m' : Engine) (e : Expr) : Prop :=
  ∀ {st st' : State} {h : List Stmt} {d : Expr}, sc.ctx.AddsTemps st.ctx →
    Lowers (Lowering.expr e) st (h, d) st' →
    ExprLowered sc.signatures sc.ctx.locals.size m m' st st' e h d

/-- The same for expressions that are lowered after others. -/
def AllGoAlong (sc : Scene) (m m' : Engine) (es : List Expr) : Prop :=
  ∀ {done ds all : List Expr} {st st' : State} {h h' : List Stmt} {first : Nat},
    sc.ctx.AddsTemps st.ctx →
    Staged sc.signatures m m' sc.ctx.locals.size first st.size done h ds → first ≤ st.size →
    Lowers (Lowering.exprs ds es) st (h', all) st' →
    Staged sc.signatures m m' sc.ctx.locals.size first st'.size (done ++ es) (h ++ h') all

variable {sc : Scene} {e p l r f : Expr} {es as : List Expr}

theorem GoesAlong.const (c : Const) (i : Info) : GoesAlong sc m m' (.const c i) := by
  intro st st' h d _ hl
  obtain ⟨heq, rfl⟩ := hl.pure_inv
  cases heq
  refine .atom (by intro x j hx; cases hx) fun hs _ => ?_
  cases c <;> exact .pure hs rfl

theorem GoesAlong.local {x : LocalId} (hx : sc.ctx.Knows x) (i : Info) :
    GoesAlong sc m m' (.local x i) := by
  intro st st' h d hctx hl
  obtain ⟨heq, rfl⟩ := hl.pure_inv
  cases heq
  refine .atom ?_ fun hs hfr => ?_
  · intro y j hy
    cases hy
    exact Nat.lt_of_lt_of_le hx hctx.size_le
  · simp only [eval]
    exact Frame.read_beside hs hfr hx

theorem GoesAlong.function (f : String) (i : Info) : GoesAlong sc m m' (.function f i) := by
  intro st st' h d _ hl
  obtain ⟨heq, rfl⟩ := hl.pure_inv
  cases heq
  exact .atom (by intro x j hx; cases hx) fun hs _ => .pure hs ⟨_, rfl, rfl⟩

theorem GoesAlong.builtin (b : Builtin) (i : Info) : GoesAlong sc m m' (.builtin b i) := by
  intro st st' h d _ hl
  obtain ⟨heq, rfl⟩ := hl.pure_inv
  cases heq
  exact .atom (by intro x j hx; cases hx) fun hs _ => .pure hs ⟨_, rfl, rfl⟩

theorem GoesAlong.unary (he : GoesAlong sc m m' e) (op : UnaryOp) (i : Info) :
    GoesAlong sc m m' (.unary op e i) := by
  intro st st' h d hctx hl
  obtain ⟨⟨h₁, d₁⟩, st₁, hl₁, hl⟩ := hl.bind_inv
  obtain ⟨heq, rfl⟩ := hl.pure_inv
  cases heq
  refine ⟨(he hctx hl₁).simulates.compose (f := fun _ => applyUnary op)
    (g := fun _ => applyUnary op) (fun fr => ?_) (fun fr => ?_)
    fun hs _ hvs => applyUnary_beside hs hvs op, by intro x j hx; cases hx⟩
  · simp only [eval, evalList, bind_assoc, pure_bind, applyUnary]
  · simp only [eval, evalList, bind_assoc, pure_bind, applyUnary]

theorem GoesAlong.len (he : GoesAlong sc m m' e) (i : Info) : GoesAlong sc m m' (.len e i) := by
  intro st st' h d hctx hl
  obtain ⟨⟨h₁, d₁⟩, st₁, hl₁, hl⟩ := hl.bind_inv
  obtain ⟨heq, rfl⟩ := hl.pure_inv
  cases heq
  refine ⟨(he hctx hl₁).simulates.compose (f := fun _ => Machine.builtin .len)
    (g := fun _ => Machine.builtin .len) (fun fr => ?_) (fun fr => ?_)
    fun hs _ hvs => builtin_beside hs hvs, by intro x j hx; cases hx⟩
  · simp only [eval, evalList, bind_assoc, pure_bind]
  · simp only [eval, evalList, bind_assoc, pure_bind]

/-- The bodies of closures are only paired here; they are compared when the closure is called. -/
theorem GoesAlong.closure {ps cs : List LocalId} {rs : List Ir.Ty} {b : List Stmt}
    (hcs : ∀ x ∈ cs, sc.ctx.Knows x)
    (hbody : ∀ {st st' : State} {b' : List Stmt}, sc.ctx.AddsTemps st.ctx →
      Lowers (Lowering.block b) st b' st' → BodyLowers sc.signatures sc.ctx rs (ps ++ cs) b b')
    (i : Info) : GoesAlong sc m m' (.closure ps rs cs b i) := by
  intro st st' h d hctx hl
  obtain ⟨b', st₁, hl₁, hl⟩ := hl.bind_inv
  obtain ⟨heq, rfl⟩ := hl.pure_inv
  cases heq
  refine ⟨Simulates.nil.compose (f := fun fr _ => makeClosure ps cs b fr)
    (g := fun fr _ => makeClosure ps cs b' fr) (fun fr => ?_) (fun fr => ?_)
    fun hs hfr _ => closure_beside (hbody hctx hl₁) hcs hs hfr, by intro x j hx; cases hx⟩
  · simp only [eval, evalList, pure_bind, makeClosure]
  · simp only [eval, evalList, pure_bind, makeClosure]

theorem GoesAlong.slice (hes : AllGoAlong sc m m' es) (o : Site) (i : Info) :
    GoesAlong sc m m' (.slice es o i) := by
  intro st st' h d hctx hl
  obtain ⟨⟨h₁, ds⟩, st₁, hl₁, hl⟩ := hl.bind_inv
  obtain ⟨heq, rfl⟩ := hl.pure_inv
  cases heq
  have hstaged := hes hctx .nil le_rfl hl₁
  refine ⟨hstaged.simulates.compose
    (f := fun fr vs => Run.newSlice vs.toArray (some ⟨o, fr.activation⟩))
    (g := fun fr vs => Run.newSlice vs.toArray (some ⟨o, fr.activation⟩))
    (fun fr => ?_) (fun fr => ?_) fun hs _ hvs => newSlice_beside hs hvs,
    by intro x j hx; cases hx⟩
  · simp only [eval, List.nil_append]
  · simp only [eval]

theorem GoesAlong.map (hm : Engine.Beside sc.signatures m m') (hl : GoesAlong sc m m' l)
    (hr : GoesAlong sc m m' r) (common : Option Ir.Ty) (facts : Option MapFacts) (i : Info) :
    GoesAlong sc m m' (.binary .map l r common facts i) := by
  intro st st' h d hctx hlow
  cases map_steps hlow with
  | intro hparts hl₁ hseq hl₂ hfn hloop =>
  obtain ⟨xs, heq, hxs, hsize₂⟩ := bindTemp_inv hseq
  cases heq
  obtain ⟨xf, heq, hxf, hsize₄⟩ := bindTemp_inv hfn
  cases heq
  have hctx₁ := hctx.trans (hl₁.addsTemps (grows_expr l))
  have hctx₂ := hctx₁.trans (hseq.addsTemps (grows_bindTemp _ _))
  exact .map hm hctx.size_le (hl hctx hl₁) hxs hsize₂ (hr hctx₂ hl₂) hxf hsize₄
    (hl₁.size_le (grows_expr l)) (hl₂.size_le (grows_expr r)) hloop

theorem GoesAlong.call (hm : Engine.Beside sc.signatures m m') (hf : GoesAlong sc m m' f)
    (has : AllGoAlong sc m m' as) (i : Info) : GoesAlong sc m m' (.call f as i) := by
  intro st st' h d hctx hl
  obtain ⟨⟨h₁, d₁⟩, st₁, hl₁, hl⟩ := hl.bind_inv
  obtain ⟨⟨h₂, ds⟩, st₂, hl₂, hl⟩ := hl.bind_inv
  have hctx₁ := hctx.trans (hl₁.addsTemps (grows_expr f))
  have hstaged := has hctx₁ (.one (hf hctx hl₁)) (hl₁.size_le (grows_expr f)) hl₂
  have hcall : ∀ (m : Engine) (fr : Frame) (g : Expr) (bs : List Expr),
      eval m fr (.call g bs i) = evalList m fr (g :: bs) >>= applyCall m := by
    intro m fr g bs
    simp only [eval, evalList, bind_assoc, pure_bind, applyCall]
  -- the callee leads the list of what is done, so the list does not come back empty
  obtain ⟨g, bs, rfl⟩ := List.exists_cons_of_length_eq_add_one
    ((length_of_exprs hl₂).trans (Nat.add_comm _ _))
  obtain ⟨heq, rfl⟩ := hl.pure_inv
  cases heq
  exact ⟨hstaged.simulates.compose (f := fun _ => applyCall m) (g := fun _ => applyCall m')
    (hcall m · f as) (hcall m' · g bs) fun hs _ hvs => applyCall_beside hs hvs hm,
    by intro x j hx; cases hx⟩

theorem AllGoAlong.nil : AllGoAlong sc m m' [] := by
  intro done ds all st st' h h' first _ hst _ hl
  obtain ⟨heq, rfl⟩ := hl.pure_inv
  cases heq
  simpa only [List.append_nil] using hst

section Declared

variable (hdecl : ∀ x, sc.ctx.Knows x → sc.ctx.isTemp x = false)

include hdecl

theorem GoesAlong.operator {op : BinaryOp} (hmap : op ≠ .map) (hl : GoesAlong sc m m' l)
    (hr : GoesAlong sc m m' r) (common : Option Ir.Ty) (facts : Option MapFacts) (i : Info) :
    GoesAlong sc m m' (.binary op l r common facts i) := by
  intro st st' h d hctx hlow
  cases operator_steps hmap hlow with
  | logical hop hl₁ hl₂ =>
      have hctx₁ := hctx.trans (hl₁.addsTemps (grows_expr l))
      exact .logical hop (hl hctx hl₁) (hr hctx₁ hl₂) (hl₂.size_le (grows_expr r))
  | shortCircuit hop hl₁ hl₂ hs =>
      have hctx₁ := hctx.trans (hl₁.addsTemps (grows_expr l))
      exact .shortCircuit hop hctx.size_le (hl hctx hl₁) (hr hctx₁ hl₂)
        (hl₁.size_le (grows_expr l)) (hl₂.size_le (grows_expr r)) hs
  | strict hop hl₁ hl₂ hs =>
      have hctx₁ := hctx.trans (hl₁.addsTemps (grows_expr l))
      have hctx₂ := hctx₁.trans (hl₂.addsTemps (grows_expr r))
      have hpair := ExprLowered.pair hdecl hctx₂ (hl hctx hl₁) (hr hctx₁ hl₂)
        (hl₁.size_le (grows_expr l)) (hl₂.size_le (grows_expr r)) hs
      exact ⟨hpair.compose (eval_plain hmap hop m · l r common facts i)
        (eval_plain hmap hop m' · _ _ common facts i)
        fun hs _ hvs => applyBinary_beside hs hvs op, by intro x j hx; cases hx⟩

theorem GoesAlong.index (he : GoesAlong sc m m' e) (hp : GoesAlong sc m m' p) (b : Bounds)
    (i : Info) : GoesAlong sc m m' (.index e p b i) := by
  intro st st' h d hctx hl
  obtain ⟨⟨h₁, d₁⟩, st₁, hl₁, hl⟩ := hl.bind_inv
  obtain ⟨⟨h₂, d₂⟩, st₂, hl₂, hl⟩ := hl.bind_inv
  obtain ⟨⟨s, d₃⟩, st₃, hl₃, hl⟩ := hl.bind_inv
  obtain ⟨heq, rfl⟩ := hl.pure_inv
  cases heq
  have hctx₁ := hctx.trans (hl₁.addsTemps (grows_expr e))
  have hctx₂ := hctx₁.trans (hl₂.addsTemps (grows_expr p))
  have hpair := ExprLowered.pair hdecl hctx₂ (he hctx hl₁) (hp hctx₁ hl₂)
    (hl₁.size_le (grows_expr e)) (hl₂.size_le (grows_expr p)) hl₃
  refine ⟨hpair.compose (f := fun _ => applyIndex b) (g := fun _ => applyIndex b)
    (fun fr => ?_) (fun fr => ?_) fun hs _ hvs => applyIndex_beside hs hvs b,
    by intro x j hx; cases hx⟩
  · simp only [eval, evalList, bind_assoc, pure_bind, applyIndex]
  · simp only [eval, evalList, bind_assoc, pure_bind, applyIndex]

theorem AllGoAlong.cons (he : GoesAlong sc m m' e) (hes : AllGoAlong sc m m' es) :
    AllGoAlong sc m m' (e :: es) := by
  intro done ds all st st' h h' first hctx hst hfirst hl
  obtain ⟨⟨h₁, d₁⟩, st₁, hl₁, hl⟩ := hl.bind_inv
  obtain ⟨⟨s, ds₂⟩, st₂, hl₂, hl⟩ := hl.bind_inv
  obtain ⟨⟨h₃, all'⟩, st₃, hl₃, hl⟩ := hl.bind_inv
  obtain ⟨heq, rfl⟩ := hl.pure_inv
  cases heq
  have hsize₁ := hl₁.size_le (grows_expr e)
  have hsize₂ := hl₂.size_le (grows_spillAllBefore h₁ ds)
  have hctx₁ := hctx.trans (hl₁.addsTemps (grows_expr e))
  have hstep := hst.step hdecl hctx₁ hfirst hsize₁ (he hctx hl₁) hl₂
  have hrest := hes (hctx₁.trans (hl₂.addsTemps (grows_spillAllBefore h₁ ds))) hstep (by omega) hl₃
  simpa only [List.append_assoc, List.singleton_append] using hrest

end Declared

end Expressions

/-! ## The walk -/

section Walk

variable {sc : Scene}

mutual

/-- **What lowering makes of an expression goes side by side with it.** -/
theorem expr_lowered (hm : Engine.Beside sc.signatures m m') {live : List LocalId}
    (hsc : sc.Declares live) :
    ∀ {e : Expr}, e.WellTyped sc live → GoesAlong sc m m' e
  | .const c i, _ => GoesAlong.const c i
  | .local x i, hwt => GoesAlong.local (hsc.known x hwt.1) i
  | .function f i, _ => GoesAlong.function f i
  | .builtin b i, _ => GoesAlong.builtin b i
  | .unary op _ i, hwt => GoesAlong.unary (expr_lowered hm hsc hwt.1) op i
  | .binary op l r common facts i, hwt => by
      by_cases hmap : op = .map
      · subst hmap
        exact GoesAlong.map hm (expr_lowered hm hsc hwt.1) (expr_lowered hm hsc hwt.2.1) common
          facts i
      · exact GoesAlong.operator hsc.no_temps hmap (expr_lowered hm hsc hwt.1)
          (expr_lowered hm hsc hwt.2.1) common facts i
  | .call f as i, hwt => by
      simp only [Expr.WellTyped] at hwt
      obtain ⟨has, ⟨j, hf, -⟩ | ⟨hf, -⟩⟩ := hwt
      · -- `println` is no value of its own, so it is not well-typed
        rw [hf]
        exact GoesAlong.call hm (GoesAlong.builtin .println j) (exprs_staged hm hsc has) i
      · exact GoesAlong.call hm (expr_lowered hm hsc hf) (exprs_staged hm hsc has) i
  | .index _ _ b i, hwt =>
      GoesAlong.index hsc.no_temps (expr_lowered hm hsc hwt.1) (expr_lowered hm hsc hwt.2.1) b i
  | .len _ i, hwt => GoesAlong.len (expr_lowered hm hsc hwt.1) i
  | .slice _ o i, hwt => GoesAlong.slice (exprs_staged hm hsc hwt.1) o i
  | .closure ps rs cs b i, hwt => by
      simp only [Expr.WellTyped] at hwt
      obtain ⟨hps, hcs, -, hb, hret, -⟩ := hwt
      have hcaptured := hsc.subset hcs
      have hsc₁ := hcaptured.append hps
      exact GoesAlong.closure hcaptured.known
        (fun hctx hl => ⟨⟨hsc.valid, hsc.no_temps, hsc₁.known, hb, hret⟩, _, _, hctx, hl⟩) i

/-- What lowering makes of a list of expressions goes side by side with it. -/
theorem exprs_staged (hm : Engine.Beside sc.signatures m m') {live : List LocalId}
    (hsc : sc.Declares live) :
    ∀ {es : List Expr}, Expr.WellTypedList sc live es → AllGoAlong sc m m' es
  | [], _ => AllGoAlong.nil
  | _ :: _, hwt =>
      AllGoAlong.cons hsc.no_temps (expr_lowered hm hsc hwt.1) (exprs_staged hm hsc hwt.2)

end

end Walk

/-! ## Statements -/

/-- A statement with one operand. -/
theorem ExprLowered.stmt {e d : Expr} {h : List Stmt} {s s' : Stmt}
    {f g : Frame → Value → Run (Flow × Frame)} (he : ExprLowered sigs bound m m' st st' e h d)
    (hs : ∀ fr, exec m fr s = eval m fr e >>= f fr)
    (hs' : ∀ fr, exec m' fr s' = eval m' fr d >>= g fr)
    (hfg : ∀ {p : Pairing} {s t : Store} {fr fr' : Frame} {v w : Value}, s.Paired sigs p t →
      Frame.Paired bound p t fr fr' → v.Paired sigs p w →
      Beside sigs p t (FlowsPaired sigs bound) (f fr v s) (g fr' w t)) :
    BlockLowered sigs bound m m' [s] (h ++ [s']) := by
  refine ⟨fun {p s₀ t fr fr'} hst hfr => ?_⟩
  have heq : (runHoisted m' fr' h >>= fun fr => execBlock m' fr [s'] >>= pure)
      = (do
        let fr ← runHoisted m' fr' h
        let w ← eval m' fr d
        pure (w, fr)) >>= fun r => g r.2 r.1 := by
    simp only [bind_assoc, pure_bind, execBlock_singleton, hs', bind_pure]
  rw [execBlock_singleton, hs, ← bind_pure (execBlock m' fr' (h ++ [s']))]
  refine Beside.execBlock_append ?_
  rw [heq]
  refine Beside.bind (he.simulates.run_one hst hfr) ?_
  rintro q s₁ t₁ v ⟨w, fr₁⟩ - hs₁ ⟨hfr₁, -, hvw⟩
  exact hfg hs₁ hfr₁ hvw

section Statements

variable {sc : Scene}

mutual

/-- What lowering makes of a statement goes side by side with it. -/
theorem stmt_lowered (hm : Engine.Beside sc.signatures m m') {rs : List Ir.Ty}
    {live : List LocalId} (hsc : sc.Declares live) :
    ∀ {s : Stmt} {st st' : State} {ss' : List Stmt}, s.WellTyped sc rs live →
      sc.ctx.AddsTemps st.ctx → Lowers (Lowering.stmt s) st ss' st' →
      BlockLowered sc.signatures sc.ctx.locals.size m m' [s] ss'
  | .bind x e, st, st', ss', hwt, hctx, hl => by
      simp only [Stmt.WellTyped] at hwt
      obtain ⟨⟨h, d⟩, st₁, hl₁, hl⟩ := hl.bind_inv
      obtain ⟨rfl, rfl⟩ := hl.pure_inv
      refine (expr_lowered hm hsc hwt.1 hctx hl₁).stmt (fun fr => by rw [exec])
        (fun fr => by rw [exec]) fun hs hfr hvw => ?_
      refine Beside.bind (Frame.bind_beside hs hfr hwt.2.1 hvw) ?_
      intro q s₁ t₁ fr₁ fr₁' _ hs₁ hfr₁
      exact .pure hs₁ ⟨trivial, hfr₁⟩
  | .assign x e, st, st', ss', hwt, hctx, hl => by
      simp only [Stmt.WellTyped] at hwt
      obtain ⟨⟨h, d⟩, st₁, hl₁, hl⟩ := hl.bind_inv
      obtain ⟨rfl, rfl⟩ := hl.pure_inv
      refine (expr_lowered hm hsc hwt.1 hctx hl₁).stmt (fun fr => by rw [exec])
        (fun fr => by rw [exec]) fun hs hfr hvw => ?_
      refine Beside.bind (Frame.write_beside hs hfr (hsc.known x hwt.2.1) hvw) ?_
      intro q s₁ t₁ _ _ hadv hs₁ _
      exact .pure hs₁ ⟨trivial, hfr.advance hadv⟩
  | .expr e, st, st', ss', hwt, hctx, hl => by
      simp only [Stmt.WellTyped] at hwt
      obtain ⟨⟨h, d⟩, st₁, hl₁, hl⟩ := hl.bind_inv
      obtain ⟨rfl, rfl⟩ := hl.pure_inv
      exact (expr_lowered hm hsc hwt hctx hl₁).stmt (f := fun fr _ => pure (.next, fr))
        (g := fun fr _ => pure (.next, fr)) (fun fr => by rw [exec]) (fun fr => by rw [exec])
        fun hs hfr _ => .pure hs ⟨trivial, hfr⟩
  | .return es, st, st', ss', hwt, hctx, hl => by
      simp only [Stmt.WellTyped] at hwt
      obtain ⟨⟨h, ds⟩, st₁, hl₁, hl⟩ := hl.bind_inv
      obtain ⟨rfl, rfl⟩ := hl.pure_inv
      have hstaged := exprs_staged hm hsc hwt.1 hctx .nil le_rfl hl₁
      exact hstaged.simulates.stmt (f := fun fr vs => pure (.return (returned vs), fr))
        (g := fun fr vs => pure (.return (returned vs), fr)) (fun fr => by rw [exec, List.nil_append])
        (fun fr => by rw [exec]) fun hs hfr hvs => .pure hs ⟨returned_paired hvs, hfr⟩
  | .if c t e, st, st', ss', hwt, hctx, hl => by
      simp only [Stmt.WellTyped] at hwt
      obtain ⟨⟨h, d⟩, st₁, hl₁, hl⟩ := hl.bind_inv
      obtain ⟨t', st₂, hl₂, hl⟩ := hl.bind_inv
      obtain ⟨e', st₃, hl₃, hl⟩ := hl.bind_inv
      obtain ⟨rfl, rfl⟩ := hl.pure_inv
      have hctx₁ := hctx.trans (hl₁.addsTemps (grows_expr c))
      have ht := block_lowered hm hsc hwt.2.2.1 hctx₁ hl₂
      have he := block_lowered hm hsc hwt.2.2.2 (hctx₁.trans (hl₂.addsTemps (grows_block t))) hl₃
      refine (expr_lowered hm hsc hwt.1 hctx hl₁).stmt (fun fr => by rw [exec])
        (fun fr => by rw [exec]) fun hs hfr hvw => ?_
      refine Beside.bind (asBool_beside hs hvw) ?_
      rintro q s₁ t₁ b _ hadv hs₁ ⟨rfl, -⟩
      cases b with
      | false => exact he.run hs₁ (hfr.advance hadv)
      | true => exact ht.run hs₁ (hfr.advance hadv)
  | .while c b, st, st', ss', hwt, hctx, hl => by
      simp only [Stmt.WellTyped] at hwt
      obtain ⟨⟨h, d⟩, st₁, hl₁, hl⟩ := hl.bind_inv
      obtain ⟨b', st₂, hl₂, hl⟩ := hl.bind_inv
      obtain ⟨rfl, rfl⟩ := hl.pure_inv
      have hctx₁ := hctx.trans (hl₁.addsTemps (grows_expr c))
      exact .loop (expr_lowered hm hsc hwt.1 hctx hl₁).simulates
        (block_lowered hm hsc hwt.2.2 hctx₁ hl₂) hm.rounds
  | .store _ _ _ _, _, _, _, hwt, _, _ => hwt.elim
  | .break, _, _, _, hwt, _, _ => hwt.elim
  | .for _ _ _ _, _, _, _, hwt, _, _ => hwt.elim

/-- **What lowering makes of a block goes side by side with it.** -/
theorem block_lowered (hm : Engine.Beside sc.signatures m m') {rs : List Ir.Ty}
    {live : List LocalId} (hsc : sc.Declares live) :
    ∀ {ss : List Stmt} {st st' : State} {ss' : List Stmt}, Stmt.WellTypedBlock sc rs live ss →
      sc.ctx.AddsTemps st.ctx → Lowers (Lowering.block ss) st ss' st' →
      BlockLowered sc.signatures sc.ctx.locals.size m m' ss ss'
  | [], st, st', ss', _, _, hl => by
      obtain ⟨rfl, rfl⟩ := hl.pure_inv
      exact .nil
  | s :: ss, st, st', ss', hwt, hctx, hl => by
      simp only [Stmt.WellTypedBlock] at hwt
      obtain ⟨ss₁, st₁, hl₁, hl⟩ := hl.bind_inv
      obtain ⟨ss₂, st₂, hl₂, hl⟩ := hl.bind_inv
      obtain ⟨rfl, rfl⟩ := hl.pure_inv
      have hsc' := hsc.append hwt.1.binds_known
      exact .cons (stmt_lowered hm hsc hwt.1 hctx hl₁)
        (block_lowered hm hsc' hwt.2 (hctx.trans (hl₁.addsTemps (grows_stmt s))) hl₂)

end

end Statements

end Rivulet.Machine
