import Rivulet.Proofs.Machine.Operations
import Rivulet.Proofs.Machine.SafeOperations

set_option autoImplicit false

/-! # Well-typed code runs safely

Code that is well typed, run with maps treated directly, has no fault but a division by zero and a
subscript out of bounds, and gives values of the types that are written on it. The proof is one walk
over the code on an engine whose calls are safe, and then an induction on the time, which builds the
engine. -/

namespace Rivulet.Machine

open Ir
open Validate (Scene)

/-- The typing of code that comes from a program: a closure has a well-typed body. -/
def CodeTyping.source (sigs : Validate.Signatures) : CodeTyping :=
  ⟨sigs, fun ctx rs live b => Stmt.WellTypedBody ⟨ctx, sigs⟩ rs live b⟩

variable {sc : Scene} {st : StoreTyping} {s : Store}

/-- What holds after a piece of code: if execution goes on, the frame has the live locals, and if it
returns, the value is of the result type. Code that must return does not go on. -/
def FlowOk (ct : CodeTyping) (ctx : Context) (rs : List Ir.Ty) (live : List LocalId)
    (mustReturn : Bool) (st : StoreTyping) : Flow × Frame → Prop
  | (.next, fr) => fr.Models ctx live st ∧ mustReturn = false
  | (.break, _) => False
  | (.return v, _) => v.HasTy ct st (.ofResults rs)


theorem FlowOk.mono {ct : CodeTyping} {ctx : Context} {rs : List Ir.Ty} {live live' : List LocalId}
    {b b' : Bool} {p : Flow × Frame} (h : FlowOk ct ctx rs live b st p) (hlive : live' ⊆ live)
    (hb : b' = true → b = true) : FlowOk ct ctx rs live' b' st p := by
  obtain ⟨flow, fr⟩ := p
  cases flow with
  | next =>
      refine ⟨h.1.subset hlive, ?_⟩
      have hfalse := h.2
      cases b' with
      | false => rfl
      | true => rw [hb rfl] at hfalse; cases hfalse
  | «break» => exact h
  | «return» v => exact h

/-- The rounds of a loop: what the condition and the body keep, the loop keeps. -/
theorem whileLoop_safe {ct : CodeTyping} {ctx : Context} {rs : List Ir.Ty} {live : List LocalId}
    {cond : Frame → Run Bool} {body : Frame → Run (Flow × Frame)}
    (hcond : ∀ {st s fr}, s.Models ct st → fr.Models ctx live st →
      Safe ct st (fun _ _ => True) (cond fr s))
    (hbody : ∀ {st s fr}, s.Models ct st → fr.Models ctx live st →
      Safe ct st (FlowOk ct ctx rs live false) (body fr s)) :
    ∀ {n : Nat} {st : StoreTyping} {s : Store} {fr : Frame}, s.Models ct st →
      fr.Models ctx live st →
      Safe ct st (FlowOk ct ctx rs live false) (whileLoop cond body n fr s)
  | 0, st, s, fr, _, _ => trivial
  | n + 1, st, s, fr, hs, hfr => by
      refine Safe.bind (hcond hs hfr) fun st₁ b s₁ hle₁ hs₁ _ => ?_
      have hfr₁ := hfr.mono hle₁
      cases b with
      | false => exact Safe.pure hs₁ ⟨hfr₁, rfl⟩
      | true =>
          refine Safe.bind (hbody hs₁ hfr₁) fun st₂ p s₂ hle₂ hs₂ hp => ?_
          obtain ⟨flow, fr₂⟩ := p
          cases flow with
          | next => exact whileLoop_safe hcond hbody hs₂ hp.1
          | «break» => exact hp.elim
          | «return» v => exact Safe.pure hs₂ hp

/-! ## The walk -/

section Walk

variable {m : Engine}

/-- A map of well-typed operands, once they are evaluated. -/
theorem map_safe {ct : CodeTyping} (hm : m.Safe ct) {v f : Value} {e u : Ir.Ty}
    (hs : s.Models ct st) (hv : v.HasTy ct st (.slice e)) (hf : f.HasTy ct st (.func [e] [u])) :
    Safe ct st (fun st' w => w.HasTy ct st' (.slice u))
      ((do
        let a ← asSlice v
        let n ← Run.sliceLength a
        let vs ← mapItems m.call f a n 0 #[]
        Run.newSlice vs none) s) := by
  obtain ⟨a, n, rfl, ha⟩ := hv.slice
  simp only [asSlice, pure_bind]
  rw [Run.bind_apply_of_ok (sliceLength_of_typed hs ha)]
  refine Safe.bind (mapItems_safe hm (Nat.zero_add n) hs hf ha (by simp)) ?_
  intro st' vs s' _ hs' hvs
  exact newSlice_safe none hs' hvs

/-- The value of a closure expression. -/
theorem closure_safe {fr : Frame} {live ps cs : List LocalId} {rs : List Ir.Ty} {b : List Stmt}
    (hs : s.Models (.source sc.signatures) st) (hfr : fr.Models sc.ctx live st) (hcs : cs ⊆ live)
    (hb : Stmt.WellTypedBody sc rs (ps ++ cs) b) :
    Safe (.source sc.signatures) st
      (fun st' v => v.HasTy (.source sc.signatures) st' (.func (ps.map sc.ctx.typeOf) rs))
      ((do
        let env ← captureCells fr cs
        let i ← Run.newClosure
        pure (.func (.closure i ps b env)) : Run Value) s) := by
  have hbound : ∀ x ∈ cs, ∃ a, fr.cells.lookup x = some a := by
    intro x hx
    obtain ⟨a, ha, -⟩ := hfr x (hcs hx)
    exact ⟨a, ha⟩
  obtain ⟨env, henv, hfst, hall⟩ := captureCells_of_bound hbound
  rw [henv, pure_bind]
  refine ⟨st, .refl st, hs.congr rfl rfl, sc.ctx, rs, rfl, ?_, ?_⟩
  · rw [hfst]
    exact hb
  · intro p hp
    have hpcs : p.1 ∈ cs := by
      rw [← hfst]
      exact List.mem_map_of_mem hp
    obtain ⟨a, ha, hat⟩ := hfr p.1 (hcs hpcs)
    rw [hall p hp, Option.some.injEq] at ha
    rw [ha]
    exact hat

mutual

/-- **Evaluating a well-typed expression is safe and gives a value of its type.** -/
theorem eval_safe (hm : m.Safe (.source sc.signatures)) {live : List LocalId}
    (hsc : sc.Declares live) :
    ∀ {e : Expr} {st : StoreTyping} {s : Store} {fr : Frame}, e.WellTyped sc live →
      s.Models (.source sc.signatures) st → fr.Models sc.ctx live st →
      Safe (.source sc.signatures) st (fun st' v => v.HasTy (.source sc.signatures) st' e.ty)
        (eval m fr e s)
  | .const c i, st, s, fr, h, hs, _ => by
      simp only [Expr.WellTyped] at h
      cases c <;> exact Safe.pure hs h
  | .local x i, st, s, fr, h, hs, hfr => by
      simp only [Expr.WellTyped] at h
      simp only [Expr.ty, Expr.info, h.2, eval]
      exact Frame.read_safe hs hfr h.1
  | .function f i, st, s, fr, h, hs, _ => by
      simp only [Expr.WellTyped] at h
      exact Safe.pure hs ⟨hsc.valid.callable f _ h, h⟩
  | .builtin b i, st, s, fr, h, hs, _ => Safe.pure hs h
  | .unary op e i, st, s, fr, h, hs, hfr => by
      simp only [Expr.WellTyped] at h
      obtain ⟨he, hety, hi⟩ := h
      simp only [Expr.ty, Expr.info, hi, eval]
      refine Safe.bind (eval_safe hm hsc he hs hfr) fun st₁ v s₁ _ hs₁ hv => ?_
      exact unary_safe hs₁ (by rwa [← hety])
  | .binary op l r common facts i, st, s, fr, h, hs, hfr => by
      simp only [Expr.WellTyped] at h
      obtain ⟨hl, hr, hop⟩ := h
      simp only [Expr.ty, Expr.info]
      rcases hop with ⟨rfl, -, e, u, hlt, hrt, hi⟩ | ⟨hmap, -, hlr, hh⟩
      · simp only [eval, if_true, hm.maps]
        refine Safe.bind (eval_safe hm hsc hl hs hfr) fun st₁ v s₁ hle₁ hs₁ hv => ?_
        refine Safe.bind (eval_safe hm hsc hr hs₁ (hfr.mono hle₁)) fun st₂ f s₂ hle₂ hs₂ hf => ?_
        rw [hi]
        rw [hlt] at hv
        rw [hrt] at hf
        exact map_safe hm hs₂ (hv.mono hle₂) hf
      · by_cases hlogic : op = .and ∨ op = .or
        · obtain ⟨hlb, hib⟩ := homogeneous?_logic hlogic hh
          rw [eval_logical hlogic]
          refine Safe.bind (eval_safe hm hsc hl hs hfr) fun st₁ v s₁ hle₁ hs₁ hv => ?_
          refine Safe.bind (asBool_safe hs₁ (hlb ▸ hv)) fun st₂ b s₂ hle₂ hs₂ _ => ?_
          cases needsRight op b with
          | false => exact Safe.pure hs₂ hib
          | true =>
              refine Safe.bind (eval_safe hm hsc hr hs₂ (hfr.mono (hle₁.trans hle₂))) ?_
              intro st₃ w s₃ _ hs₃ hw
              rw [← hlr, hlb] at hw
              refine Safe.bind (asBool_safe hs₃ hw) fun st₄ c s₄ _ hs₄ _ => ?_
              exact Safe.pure hs₄ hib
        · rw [eval_operator hmap hlogic]
          refine Safe.bind (eval_safe hm hsc hl hs hfr) fun st₁ v s₁ hle₁ hs₁ hv => ?_
          refine Safe.bind (eval_safe hm hsc hr hs₁ (hfr.mono hle₁)) fun st₂ w s₂ hle₂ hs₂ hw => ?_
          exact binary_safe hs₂ hmap hlogic hh (hv.mono hle₂) (by rwa [hlr])
  | .call f as i, st, s, fr, h, hs, hfr => by
      simp only [Expr.WellTyped] at h
      obtain ⟨has, hcase⟩ := h
      simp only [Expr.ty, Expr.info, eval]
      rcases hcase with ⟨j, rfl, hone, -, hi⟩ | ⟨hf, rs, hfty, hi⟩
      · -- `println` is no value of its own, so its call is a case of its own
        rw [hi]
        simp only [eval, pure_bind]
        refine Safe.bind (evalList_safe hm hsc has hs hfr) fun st₁ vs s₁ _ hs₁ hvs => ?_
        have hlen := hvs.length_eq
        rw [List.length_map, hone] at hlen
        obtain ⟨v, rfl⟩ := List.length_eq_one_iff.1 hlen
        exact (hm.print hs₁).weaken fun st₂ w _ hw => by subst hw; rfl
      · rw [hi]
        refine Safe.bind (eval_safe hm hsc hf hs hfr) fun st₁ v s₁ hle₁ hs₁ hv => ?_
        refine Safe.bind (evalList_safe hm hsc has hs₁ (hfr.mono hle₁))
          fun st₂ vs s₂ hle₂ hs₂ hvs => ?_
        rw [hfty] at hv
        exact hm.call hs₂ (hv.mono hle₂) hvs
  | .index e p b i, st, s, fr, h, hs, hfr => by
      simp only [Expr.WellTyped] at h
      obtain ⟨he, hp, rfl, hety, hpty⟩ := h
      simp only [eval]
      refine Safe.bind (eval_safe hm hsc he hs hfr) fun st₁ v s₁ hle₁ hs₁ hv => ?_
      refine Safe.bind (eval_safe hm hsc hp hs₁ (hfr.mono hle₁)) fun st₂ w s₂ hle₂ hs₂ hw => ?_
      rw [hety] at hv
      rw [hpty] at hw
      exact index_safe hs₂ (hv.mono hle₂) hw
  | .len e i, st, s, fr, h, hs, hfr => by
      simp only [Expr.WellTyped] at h
      obtain ⟨he, ⟨t, hety⟩, hi⟩ := h
      simp only [Expr.ty, Expr.info, hi, eval]
      refine Safe.bind (eval_safe hm hsc he hs hfr) fun st₁ v s₁ _ hs₁ hv => ?_
      rw [hety] at hv
      obtain ⟨a, n, rfl, ha⟩ := hv.slice
      simp only [builtin]
      rw [Run.bind_apply_of_ok (sliceLength_of_typed hs₁ ha)]
      exact Safe.pure hs₁ rfl
  | .slice es o i, st, s, fr, h, hs, hfr => by
      simp only [Expr.WellTyped] at h
      obtain ⟨hes, -, t, hi, hall⟩ := h
      simp only [Expr.ty, Expr.info, hi, eval]
      refine Safe.bind (evalList_safe hm hsc hes hs hfr) fun st₁ vs s₁ _ hs₁ hvs => ?_
      refine newSlice_safe _ hs₁ fun v hv => ?_
      have hall' : ∀ u ∈ es.map Expr.ty, u = t := by
        intro u hu
        obtain ⟨e, he, rfl⟩ := List.mem_map.1 hu
        exact hall e he
      exact hvs.of_forall_eq hall' v (by simpa using hv)
  | .closure ps rs cs b i, st, s, fr, h, hs, hfr => by
      simp only [Expr.WellTyped] at h
      obtain ⟨hps, hcs, -, hb, hret, hi⟩ := h
      simp only [Expr.ty, Expr.info, hi, eval]
      have hsc₁ := (hsc.subset hcs).append hps
      exact closure_safe hs hfr hcs ⟨hsc.valid, hsc.no_temps, hsc₁.known, hb, hret⟩

/-- Evaluating well-typed expressions is safe and gives values of their types. -/
theorem evalList_safe (hm : m.Safe (.source sc.signatures)) {live : List LocalId}
    (hsc : sc.Declares live) :
    ∀ {es : List Expr} {st : StoreTyping} {s : Store} {fr : Frame},
      Expr.WellTypedList sc live es → s.Models (.source sc.signatures) st →
      fr.Models sc.ctx live st →
      Safe (.source sc.signatures) st
        (fun st' vs => Value.HasTys (.source sc.signatures) st' vs (es.map Expr.ty))
        (evalList m fr es s)
  | [], st, s, fr, _, hs, _ => Safe.pure hs rfl
  | e :: es, st, s, fr, h, hs, hfr => by
      simp only [Expr.WellTypedList] at h
      refine Safe.bind (eval_safe hm hsc h.1 hs hfr) fun st₁ v s₁ hle₁ hs₁ hv => ?_
      refine Safe.bind (evalList_safe hm hsc h.2 hs₁ (hfr.mono hle₁))
        fun st₂ vs s₂ hle₂ hs₂ hvs => ?_
      exact Safe.pure hs₂ ⟨e.ty, _, rfl, hv.mono hle₂, hvs⟩

end

mutual

/-- **Executing a well-typed statement is safe.** -/
theorem exec_safe (hm : m.Safe (.source sc.signatures)) {rs : List Ir.Ty}
    {live : List LocalId} (hsc : sc.Declares live) :
    ∀ {c : Stmt} {st : StoreTyping} {s : Store} {fr : Frame}, c.WellTyped sc rs live →
      s.Models (.source sc.signatures) st → fr.Models sc.ctx live st →
      Safe (.source sc.signatures) st
        (FlowOk (.source sc.signatures) sc.ctx rs (c.binds ++ live) c.returns) (exec m fr c s)
  | .bind x e, st, s, fr, h, hs, hfr => by
      simp only [Stmt.WellTyped] at h
      simp only [exec, Stmt.returns]
      refine Safe.bind (eval_safe hm hsc h.1 hs hfr) fun st₁ v s₁ hle₁ hs₁ hv => ?_
      rw [h.2.2] at hv
      refine Safe.bind (Frame.bind_safe hs₁ (hfr.mono hle₁) hv) fun st₂ fr₂ s₂ _ hs₂ hfr₂ => ?_
      exact Safe.pure hs₂ ⟨hfr₂, rfl⟩
  | .assign x e, st, s, fr, h, hs, hfr => by
      simp only [Stmt.WellTyped] at h
      simp only [exec, Stmt.returns]
      refine Safe.bind (eval_safe hm hsc h.1 hs hfr) fun st₁ v s₁ hle₁ hs₁ hv => ?_
      rw [h.2.2] at hv
      have hfr₁ := hfr.mono hle₁
      refine Safe.bind (Frame.write_safe hs₁ hfr₁ h.2.1 hv) fun st₂ _ s₂ hle₂ hs₂ _ => ?_
      exact Safe.pure hs₂ ⟨hfr₁.mono hle₂, rfl⟩
  | .expr e, st, s, fr, h, hs, hfr => by
      simp only [Stmt.WellTyped] at h
      simp only [exec, Stmt.returns]
      refine Safe.bind (eval_safe hm hsc h hs hfr) fun st₁ v s₁ hle₁ hs₁ _ => ?_
      exact Safe.pure hs₁ ⟨hfr.mono hle₁, rfl⟩
  | .return es, st, s, fr, h, hs, hfr => by
      simp only [Stmt.WellTyped] at h
      simp only [exec]
      refine Safe.bind (evalList_safe hm hsc h.1 hs hfr) fun st₁ vs s₁ _ hs₁ hvs => ?_
      exact Safe.pure hs₁ (hasTy_returned h.2 hvs)
  | .if c t e, st, s, fr, h, hs, hfr => by
      simp only [Stmt.WellTyped] at h
      obtain ⟨hc, hcty, ht, he⟩ := h
      simp only [exec]
      refine Safe.bind (eval_safe hm hsc hc hs hfr) fun st₁ v s₁ hle₁ hs₁ hv => ?_
      rw [hcty] at hv
      refine Safe.bind (asBool_safe hs₁ hv) fun st₂ b s₂ hle₂ hs₂ _ => ?_
      have hfr₂ := hfr.mono (hle₁.trans hle₂)
      cases b with
      | true =>
          refine (execBlock_safe hm hsc ht hs₂ hfr₂).weaken fun st₃ p _ hp => ?_
          exact hp.mono (fun _ hx => hx) fun h => (Bool.and_eq_true_iff.1 h).1
      | false =>
          refine (execBlock_safe hm hsc he hs₂ hfr₂).weaken fun st₃ p _ hp => ?_
          exact hp.mono (fun _ hx => hx) fun h => (Bool.and_eq_true_iff.1 h).2
  | .while c b, st, s, fr, h, hs, hfr => by
      simp only [Stmt.WellTyped] at h
      obtain ⟨hc, hcty, hb⟩ := h
      simp only [exec, Stmt.returns]
      refine whileLoop_safe (fun {st₁ s₁ fr₁} hs₁ hfr₁ => ?_) (fun {st₁ s₁ fr₁} hs₁ hfr₁ => ?_) hs hfr
      · refine Safe.bind (eval_safe hm hsc hc hs₁ hfr₁) fun st₂ v s₂ _ hs₂ hv => ?_
        rw [hcty] at hv
        exact (asBool_safe hs₂ hv).weaken fun _ _ _ _ => trivial
      · refine (execBlock_safe hm hsc hb hs₁ hfr₁).weaken fun st₂ p _ hp => ?_
        exact hp.mono (fun _ hx => hx) fun h => by cases h

/-- Executing a well-typed block is safe. -/
theorem execBlock_safe (hm : m.Safe (.source sc.signatures)) {rs : List Ir.Ty}
    {live : List LocalId} (hsc : sc.Declares live) :
    ∀ {ss : List Stmt} {st : StoreTyping} {s : Store} {fr : Frame},
      Stmt.WellTypedBlock sc rs live ss → s.Models (.source sc.signatures) st →
      fr.Models sc.ctx live st →
      Safe (.source sc.signatures) st
        (FlowOk (.source sc.signatures) sc.ctx rs live (Stmt.anyReturns ss)) (execBlock m fr ss s)
  | [], st, s, fr, _, hs, hfr => Safe.pure hs ⟨hfr, rfl⟩
  | c :: ss, st, s, fr, h, hs, hfr => by
      simp only [Stmt.WellTypedBlock] at h
      simp only [execBlock, Stmt.anyReturns]
      refine Safe.bind (exec_safe hm hsc h.1 hs hfr) fun st₁ p s₁ hle₁ hs₁ hp => ?_
      obtain ⟨flow, fr₁⟩ := p
      have hsc₁ := hsc.append h.1.binds_known
      cases flow with
      | next =>
          refine (execBlock_safe hm hsc₁ h.2 hs₁ hp.1).weaken fun st₂ q _ hq => ?_
          refine hq.mono (fun x hx => List.mem_append_right _ hx) fun hret => ?_
          rw [hp.2, Bool.false_or] at hret
          exact hret
      | «break» => exact hp.elim
      | «return» v => exact Safe.pure hs₁ hp

end

/-- Running a well-typed body on arguments of the types of its parameters. -/
theorem activate_safe (hm : m.Safe (.source sc.signatures)) {rs : List Ir.Ty}
    {live ps : List LocalId} {b : List Stmt} {vs : List Value}
    {cells : List (LocalId × CellAddr)} (hb : Stmt.WellTypedBody sc rs (ps ++ live) b)
    (hs : s.Models (.source sc.signatures) st) (hcells : (Frame.mk 0 cells).Models sc.ctx live st)
    (hvs : Value.HasTys (.source sc.signatures) st vs (ps.map sc.ctx.typeOf)) :
    Safe (.source sc.signatures) st
      (fun st' v => v.HasTy (.source sc.signatures) st' (.ofResults rs))
      (activate m cells ps b vs s) := by
  unfold activate
  have hact : Run.newActivation s = .ok s.activations { s with activations := s.activations + 1 } :=
    rfl
  rw [Run.bind_apply_of_ok hact]
  have hfr : (Frame.mk s.activations cells).Models sc.ctx live st := hcells
  refine Safe.bind (Frame.bindParams_safe (hs.congr rfl rfl) hfr hvs) fun st₁ fr₁ s₁ _ hs₁ hfr₁ => ?_
  refine Safe.bind (execBlock_safe hm hb.declares hb.block hs₁ hfr₁) ?_
  rintro st₂ ⟨flow, fr₂⟩ s₂ _ hs₂ hflow
  refine Safe.pure hs₂ ?_
  cases flow with
  | next =>
      -- the end of the body is reached only if there is nothing to return
      have hrs : rs = [] := by
        by_contra hne
        rw [hb.returns hne] at hflow
        cases hflow.2
      rw [hrs]
      rfl
  | «break» => exact hflow.elim
  | «return» v => exact hflow

end Walk

/-! ## Calls -/

/-- A function is found where its signature is. -/
theorem Code.lookup_ofModule (md : Module) (maps : MapRule) (name : String) :
    (Validate.signatures md).lookup name
      = ((Code.ofModule md maps).functions.lookup name).map Function.signature := by
  have key : ∀ fs : List Function,
      (fs.map fun f => (f.name, f.signature)).lookup name
        = ((fs.map fun f => (f.name, f)).lookup name).map Function.signature := by
    intro fs
    induction fs with
    | nil => rfl
    | cons f fs ih =>
        simp only [List.map_cons, List.lookup_cons]
        split
        · rfl
        · exact ih
  simp only [Validate.signatures, Code.ofModule, ← List.map_reverse]
  exact key _

/-- What is found under a name is a function of the module with that name. -/
theorem Code.mem_of_lookup {md : Module} {maps : MapRule} {name : String} {f : Function}
    (h : (Code.ofModule md maps).functions.lookup name = some f) :
    f ∈ md.functions ∧ f.name = name := by
  obtain ⟨l₁, l₂, heq, -⟩ := List.lookup_eq_some_iff.1 h
  have hmem : (name, f) ∈ (Code.ofModule md maps).functions := by
    rw [heq]
    simp
  simp only [Code.ofModule, List.mem_reverse, List.mem_map, Prod.mk.injEq] at hmem
  obtain ⟨g, hg, hname, rfl⟩ := hmem
  exact ⟨hg, hname⟩

section Calls

variable {md : Module} (hmd : md.WellTyped)

include hmd

/-- Calling a function of a well-typed module by its name. -/
theorem Code.callOn_safe {m : Engine} (hm : m.Safe (.source (Validate.signatures md)))
    {maps : MapRule} {name : String} {ps rs : List Ir.Ty} {vs : List Value}
    (hs : s.Models (.source (Validate.signatures md)) st)
    (hname : (Validate.signatures md).lookup name = some (.func ps rs))
    (hvs : Value.HasTys (.source (Validate.signatures md)) st vs ps) :
    Safe (.source (Validate.signatures md)) st
      (fun st' v => v.HasTy (.source (Validate.signatures md)) st' (.ofResults rs))
      ((Code.ofModule md maps).callOn m name vs s) := by
  rw [Code.lookup_ofModule md maps, Option.map_eq_some_iff] at hname
  obtain ⟨f, hf, hsig⟩ := hname
  simp only [Function.signature, Ir.Ty.func.injEq] at hsig
  obtain ⟨rfl, rfl⟩ := hsig
  have hb : Stmt.WellTypedBody ⟨f.ctx, Validate.signatures md⟩ f.results (f.params ++ []) f.body := by
    rw [List.append_nil]
    exact hmd.body (Code.mem_of_lookup hf).1
  simp only [Code.callOn, hf]
  refine activate_safe hm hb hs ?_ hvs
  intro x hx
  cases hx

/-- **The engine of a well-typed module is safe**, however much time it has. -/
theorem Code.engine_safe : ∀ time : Nat,
    ((Code.ofModule md .direct).engine time).Safe (.source (Validate.signatures md)) := by
  intro time
  induction time with
  | zero => exact ⟨rfl, fun _ _ _ => trivial, fun _ => trivial⟩
  | succ time ih =>
      refine ⟨rfl, ?_, ?_⟩
      · intro st s f ps rs vs hs hf hvs
        obtain ⟨c, rfl, hc⟩ := hf.func
        simp only [engine, callValue, asCallable, pure_bind]
        cases c with
        | function name => exact Code.callOn_safe hmd ih hs hc.2 hvs
        | builtin b =>
            obtain ⟨rfl, hty⟩ := hc
            simp only [Ir.Ty.func.injEq] at hty
            obtain ⟨rfl, rfl⟩ := hty
            have hlen := hvs.length_eq
            obtain ⟨v, rfl⟩ := List.length_eq_one_iff.1 hlen
            obtain ⟨t, us, hts, hv, -⟩ := hvs
            rw [List.cons.injEq] at hts
            obtain ⟨n, rfl⟩ := (hts.1 ▸ hv : v.HasTy _ st .i64).int
            exact Safe.pure hs rfl
        | closure i ps' b env =>
            obtain ⟨ctx, rs', hty, hb, henv⟩ := hc
            simp only [Ir.Ty.func.injEq] at hty
            obtain ⟨rfl, rfl⟩ := hty
            have hbody : Stmt.WellTypedBody ⟨ctx, Validate.signatures md⟩ rs
              (ps' ++ env.map Prod.fst) b := hb
            refine activate_safe ih hbody hs ?_ hvs
            -- a captured local is found in the frame with one of its cells, all of its type
            intro x hx
            obtain ⟨a, ha⟩ := exists_lookup_closureCells hx
            exact ⟨a, ha, henv (x, a) (mem_of_lookup_closureCells ha)⟩
      · intro st s v hs
        simp only [engine, callValue, asCallable, pure_bind, builtin]
        exact ⟨st, .refl st, hs.congr rfl rfl, rfl⟩

/-- **Calls of a well-typed module are safe.** A function that is called by name with arguments of
the types of its parameters, on a store that keeps to a store typing, either uses up its time, or
ends in a fault of the data, or gives a value of its result type. -/
theorem callFunction_safe (time : Nat) {name : String} {ps rs : List Ir.Ty} {vs : List Value}
    (hs : s.Models (.source (Validate.signatures md)) st)
    (hname : (Validate.signatures md).lookup name = some (.func ps rs))
    (hvs : Value.HasTys (.source (Validate.signatures md)) st vs ps) :
    Safe (.source (Validate.signatures md)) st
      (fun st' v => v.HasTy (.source (Validate.signatures md)) st' (.ofResults rs))
      (callFunction (Code.ofModule md .direct) time name vs s) :=
  Code.callOn_safe hmd (Code.engine_safe hmd time) hs hname hvs

end Calls

end Rivulet.Machine
