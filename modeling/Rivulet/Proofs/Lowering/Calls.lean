import Rivulet.Proofs.Lowering.Simulation
import Rivulet.Proofs.Machine.Safety

set_option autoImplicit false

/-! # Calls of lowered functions

Lowering a module lowers its functions one by one and keeps their names and signatures
(`Module.LowersTo`). So both codes find related functions under a name, and calls go side by side: by
induction on the time, since calls made within a call have less of it. -/

namespace Rivulet.Ir

open Lowering

/-! ## Lowered modules -/

/-- A function and its lowering. -/
structure Function.LowersTo (f f' : Function) : Prop where
  name : f'.name = f.name
  signature : f'.signature = f.signature
  params : f'.params = f.params
  body : ∃ st, Lowers (block f.body) ⟨f.ctx, 0⟩ f'.body st

/-- A module and its lowering. -/
def Module.LowersTo (m m' : Module) : Prop :=
  List.Forall₂ Function.LowersTo m.functions m'.functions

theorem Function.lowersTo_of_lower {f f' : Function} {n : Nat} (hwt : ∀ x ∈ f.params, f.ctx.Knows x)
    (h : f.lower = (.ok n, f')) : f.LowersTo f' := by
  unfold Function.lower at h
  split at h
  · rename_i b st hb
    simp only [Prod.mk.injEq, Except.ok.injEq] at h
    obtain ⟨-, rfl⟩ := h
    refine ⟨rfl, ?_, rfl, st, hb⟩
    have hadds : f.ctx.AddsTemps st.ctx := Lowers.addsTemps hb (grows_block f.body)
    simp only [Function.signature, Ty.func.injEq, and_true]
    exact List.map_congr_left fun x hx => hadds.le.typeOf (hwt x hx)
  · simp at h

theorem Module.lowersTo_of_lower {m m' : Module} {n : Nat}
    (hwt : m.WellTyped) (h : m.lower = (.ok n, m')) : m.LowersTo m' :=
  Module.forall₂_of_lower (fun f hf _ _ => Function.lowersTo_of_lower (hwt f hf).params_known) h

/-- Lowering keeps the signatures. -/
theorem Module.LowersTo.signatures_eq {m m' : Module} (h : m.LowersTo m') :
    Validate.signatures m' = Validate.signatures m := by
  have key : ∀ {fs fs' : List Function}, List.Forall₂ Function.LowersTo fs fs' →
      fs'.map (fun f => (f.name, f.signature)) = fs.map fun f => (f.name, f.signature) := by
    intro fs fs' hfs
    induction hfs with
    | nil => rfl
    | cons hf _ ih => rw [List.map_cons, List.map_cons, ih, hf.name, hf.signature]
  simp only [Validate.signatures, key h]

end Rivulet.Ir

namespace Rivulet.Machine

open Ir Lowering

/-- Under a name, both codes find a function and its lowering, or both find nothing. -/
theorem Code.lookup_lowersTo {md md' : Module} (h : md.LowersTo md') (maps maps' : MapRule)
    (name : String) :
    Option.Rel Function.LowersTo ((Code.ofModule md maps).functions.lookup name)
      ((Code.ofModule md' maps').functions.lookup name) := by
  have key : ∀ {fs fs' : List Function}, List.Forall₂ Function.LowersTo fs fs' →
      Option.Rel Function.LowersTo ((fs.map fun f => (f.name, f)).lookup name)
        ((fs'.map fun f => (f.name, f)).lookup name) := by
    intro fs fs' hfs
    induction hfs with
    | nil => exact .none
    | cons hf _ ih =>
        simp only [List.map_cons, List.lookup_cons, hf.name]
        split
        · exact .some hf
        · exact ih
  simp only [Code.ofModule, ← List.map_reverse]
  exact key (List.forall₂_reverse_iff.2 h)

variable {sigs : Validate.Signatures} {p : Pairing} {s t : Store} {m m' : Engine}

/-- Bodies go side by side, started on paired cells and arguments. -/
theorem activate_beside (hm : Engine.Beside sigs m m') {ctx : Context} {rs : List Ir.Ty}
    {ps live : List LocalId} {b b' : List Stmt} (hb : BodyLowers sigs ctx rs (ps ++ live) b b')
    {cells cells' : List (LocalId × CellAddr)} (hs : s.Paired sigs p t)
    (hcells : ∀ n n', Frame.Paired ctx.locals.size p t ⟨n, cells⟩ ⟨n', cells'⟩) {vs ws : List Value}
    (hvs : PairedValues sigs p vs ws) :
    Beside sigs p t (fun q _ v w => v.Paired sigs q w) (activate m cells ps b vs s)
      (activate m' cells' ps b' ws t) := by
  obtain ⟨hwt, st, st', hctx, hl⟩ := hb
  have hblock : BlockLowered sigs ctx.locals.size m m' b b' :=
    block_lowered hm hwt.declares hwt.block hctx hl
  have hact : ∀ s : Store, Run.newActivation s
      = .ok s.activations { s with activations := s.activations + 1 } := fun _ => rfl
  have hs₁ : Store.Paired sigs p { s with activations := s.activations + 1 }
      { t with activations := t.activations + 1 } :=
    hs.congr rfl rfl rfl rfl hs.closures hs.output
  unfold activate
  rw [Run.bind_apply_of_ok (hact s), Run.bind_apply_of_ok (hact t)]
  have hadv : Advances p t p { t with activations := t.activations + 1 } :=
    (Advances.refl p t).congr rfl rfl
  refine Beside.ahead hadv (Beside.bind (Frame.bindParams_beside hs₁ ((hcells _ _).advance hadv)
    (fun x hx => hwt.live_known x (List.mem_append_left _ hx)) hvs) ?_)
  intro q s₂ t₂ fr fr' _ hs₂ hfr
  refine Beside.bind (hblock.run hs₂ hfr) ?_
  rintro q₃ s₃ t₃ ⟨flow, fr₃⟩ ⟨flow', fr₃'⟩ - hs₃ ⟨hflow, -⟩
  -- a body that does not return has the unit value on both sides; it does not end in a break
  refine .pure hs₃ ?_
  cases flow with
  | next =>
      cases flow' with
      | next => rfl
      | «break» | «return» _ => exact hflow.elim
  | «break» => exact hflow.elim
  | «return» v =>
      cases flow' with
      | next | «break» => exact hflow.elim
      | «return» w => exact hflow

section Calls

variable {md md' : Module} (hmd : md.WellTyped) (hlower : md.LowersTo md')

include hmd hlower

/-- Calls of a function by its name go side by side. -/
theorem Code.callOn_beside (hm : Engine.Beside (Validate.signatures md) m m')
    (hs : s.Paired (Validate.signatures md) p t) (name : String) {vs ws : List Value}
    (hvs : PairedValues (Validate.signatures md) p vs ws) :
    Beside (Validate.signatures md) p t (fun q _ v w => v.Paired (Validate.signatures md) q w)
      ((Code.ofModule md .direct).callOn m name vs s)
      ((Code.ofModule md' .refuse).callOn m' name ws t) := by
  have hrel := Code.lookup_lowersTo hlower .direct .refuse name
  unfold Code.callOn
  cases hf : (Code.ofModule md .direct).functions.lookup name with
  | none => exact fun he => he.elim
  | some f =>
      rw [hf] at hrel
      cases hf' : (Code.ofModule md' .refuse).functions.lookup name with
      | none => rw [hf'] at hrel; cases hrel
      | some f' =>
          rw [hf'] at hrel
          cases hrel with
          | some hff =>
              obtain ⟨st, hl⟩ := hff.body
              have hbody := hmd.body (Code.mem_of_lookup hf).1
              simp only [hff.params]
              have hbody' : BodyLowers (Validate.signatures md) f.ctx f.results (f.params ++ [])
                  f.body f'.body := by
                rw [List.append_nil]
                exact ⟨hbody, _, st, .refl f.ctx, hl⟩
              refine activate_beside hm hbody' hs (fun n n' => ⟨fun x a _ h => ?_, fun x b _ h => ?_⟩) hvs
              · cases h
              · cases h

/-- **Calls go side by side**, however much time there is. -/
theorem Code.engine_beside : ∀ time : Nat,
    Engine.Beside (Validate.signatures md) ((Code.ofModule md .direct).engine time)
      ((Code.ofModule md' .refuse).engine time) := by
  intro time
  -- with more time, a call may make calls of its own; callees that are paired are of the same kind
  induction time with
  | zero => exact ⟨rfl, rfl, fun _ _ _ => rfl⟩
  | succ time ih =>
      refine ⟨rfl, rfl, ?_⟩
      intro p s t f g vs ws hs hfg hvs
      simp only [engine, callValue]
      cases f with
      | func c =>
          obtain ⟨d, rfl, hcd⟩ := hfg
          simp only [asCallable, pure_bind]
          cases c with
          | function name =>
              cases d with
              | function name' =>
                  obtain rfl : name = name' := hcd
                  exact Code.callOn_beside hmd hlower ih hs name hvs
              | builtin _ | closure _ _ _ _ => exact hcd.elim
          | builtin b =>
              cases d with
              | builtin b' =>
                  obtain rfl : b = b' := hcd
                  exact builtin_beside hs hvs
              | function _ | closure _ _ _ _ => exact hcd.elim
          | closure i ps b env =>
              cases d with
              | closure j qs b' env' =>
                  obtain ⟨rfl, rfl, ⟨ctx, rs, hbody⟩, henv⟩ := hcd
                  refine activate_beside ih hbody hs (fun n n' => ?_) hvs
                  exact .ofClosure henv
                    (fun x hx => hbody.1.live_known x (List.mem_append_right _ hx)) n n'
              | function _ | builtin _ => exact hcd.elim
      | _ => exact .clash

/-- **Calls of functions go side by side.** -/
theorem callFunction_beside (time : Nat) (hs : s.Paired (Validate.signatures md) p t) (name : String)
    {vs ws : List Value} (hvs : PairedValues (Validate.signatures md) p vs ws) :
    Beside (Validate.signatures md) p t (fun q _ v w => v.Paired (Validate.signatures md) q w)
      (callFunction (Code.ofModule md .direct) time name vs s)
      (callFunction (Code.ofModule md' .refuse) time name ws t) :=
  Code.callOn_beside hmd hlower (Code.engine_beside hmd hlower time) hs name hvs

end Calls

end Rivulet.Machine
