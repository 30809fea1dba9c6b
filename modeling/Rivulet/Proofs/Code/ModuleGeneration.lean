import Rivulet.Proofs.Code.Generation
import Rivulet.Proofs.Code.Validation

set_option autoImplicit false

/-! # Programs become modules

The other half of what is known about the generator: if code was made of a tree, the captures in it
are in scope. With the walk over well-typed trees this gives the result for whole programs. Code can
be made of a well-typed program exactly if the captures of all its functions are in scope, and the
module is then well typed on its own types. -/

namespace Rivulet.Ir

open Typed (Functions)

/-! ## Captures of code that was made -/

/-- The parts of a call that were made. -/
theorem Make.call_inv {scope : Scope} {f : Typed.Expr} {as : List Typed.Expr} {i : Typed.Info}
    {e : Expr} {ctx ctx' : Context} (h : Makes (Make.expr scope (.call f as i)) ctx e ctx') :
    (∃ ctx₁ as' ctx₂, Makes (Make.exprs scope as) ctx₁ as' ctx₂) ∧
      ((∃ j, f = .builtin .len j) ∨ ∃ ctx₁ f' ctx₂, Makes (Make.expr scope f) ctx₁ f' ctx₂) := by
  rcases Make.expr_call_cases scope f as i with ⟨j, a, rfl, rfl⟩ | hexpr
  · obtain ⟨t, ctx₁, -, hrest⟩ := h.bind_inv
    obtain ⟨a', ctx₂, ha, -⟩ := hrest.bind_inv
    exact ⟨⟨ctx₁, [a'], ctx₂, ha.bind ((Makes.pure [] ctx₂).bind (Makes.pure _ _))⟩,
      Or.inl ⟨j, rfl⟩⟩
  · rw [hexpr] at h
    obtain ⟨t, ctx₁, -, hrest⟩ := h.bind_inv
    obtain ⟨f', ctx₂, hf, hrest'⟩ := hrest.bind_inv
    obtain ⟨as', ctx₃, has, -⟩ := hrest'.bind_inv
    exact ⟨⟨ctx₂, as', ctx₃, has⟩, Or.inr ⟨ctx₁, f', ctx₂, hf⟩⟩

theorem Make.params_inv :
    ∀ {ps : List Typed.Param} {scope scope' : Scope} {xs : List LocalId} {ctx ctx' : Context},
      Makes (Make.params scope ps) ctx (xs, scope') ctx' →
      scope'.map Prod.fst = (ps.map Typed.Param.name).reverse ++ scope.map Prod.fst
  | [], scope, scope', xs, ctx, ctx', h => by
      obtain ⟨heq, -⟩ := Makes.pure_inv (c := ([], scope)) h
      cases heq
      rfl
  | p :: ps, scope, scope', xs, ctx, ctx', h => by
      obtain ⟨t, ctx₁, -, h₁⟩ := h.bind_inv
      obtain ⟨x, ctx₂, -, h₂⟩ := h₁.bind_inv
      obtain ⟨⟨ys, scope''⟩, ctx₃, hps, h₃⟩ := h₂.bind_inv
      obtain ⟨heq, -⟩ := h₃.pure_inv
      cases heq
      rw [Make.params_inv hps]
      simp

mutual

/-- Captures of an expression of which code was made are in scope. -/
theorem Make.capturesIn_expr :
    ∀ {e : Typed.Expr} {scope : Scope} {e' : Expr} {ctx ctx' : Context},
      Makes (Make.expr scope e) ctx e' ctx' → e.CapturesIn (scope.map Prod.fst)
  | .int _ _, _, _, _, _, _ | .bool _ _, _, _, _, _, _ | .str _ _, _, _, _, _, _
  | .local _ _, _, _, _, _, _ | .function _ _, _, _, _, _, _ | .builtin _ _, _, _, _, _, _
  | .error _, _, _, _, _, _ => trivial
  | .unary op e i, scope, e', ctx, ctx', h => by
      obtain ⟨t, ctx₁, -, h₁⟩ := h.bind_inv
      obtain ⟨a, ctx₂, ha, -⟩ := h₁.bind_inv
      exact Make.capturesIn_expr (e := e) ha
  | .binary op l r i, scope, e', ctx, ctx', h => by
      obtain ⟨t, ctx₁, -, h₁⟩ := h.bind_inv
      obtain ⟨a, ctx₂, ha, h₂⟩ := h₁.bind_inv
      obtain ⟨b, ctx₃, hb, -⟩ := h₂.bind_inv
      exact ⟨Make.capturesIn_expr ha, Make.capturesIn_expr hb⟩
  | .seq es i, scope, e', ctx, ctx', h => by
      obtain ⟨t, ctx₁, -, h₁⟩ := h.bind_inv
      obtain ⟨as, ctx₂, has, -⟩ := h₁.bind_inv
      have hes : Typed.Expr.CapturesInList (scope.map Prod.fst) es := Make.capturesIn_exprs has
      exact hes
  | .index e p i, scope, e', ctx, ctx', h => by
      obtain ⟨t, ctx₁, -, h₁⟩ := h.bind_inv
      obtain ⟨a, ctx₂, ha, h₂⟩ := h₁.bind_inv
      obtain ⟨b, ctx₃, hb, -⟩ := h₂.bind_inv
      exact ⟨Make.capturesIn_expr ha, Make.capturesIn_expr hb⟩
  | .call f as i, scope, e', ctx, ctx', h => by
      obtain ⟨⟨ctx₁, as', ctx₂, has⟩, hf⟩ := Make.call_inv h
      refine ⟨?_, Make.capturesIn_exprs has⟩
      rcases hf with ⟨j, hf⟩ | ⟨ctx₃, f', ctx₄, hf⟩
      · rw [hf]
        trivial
      · exact Make.capturesIn_expr hf
  | .closure ps rs b cs i, scope, e', ctx, ctx', h => by
      obtain ⟨t, ctx₁, -, h₁⟩ := h.bind_inv
      obtain ⟨ys, ctx₂, hys, h₂⟩ := h₁.bind_inv
      obtain ⟨⟨xs, scope'⟩, ctx₃, hps, h₃⟩ := h₂.bind_inv
      obtain ⟨rs', ctx₄, -, h₄⟩ := h₃.bind_inv
      obtain ⟨b', ctx₅, hb, -⟩ := h₄.bind_inv
      refine ⟨(Make.captures_inv hys).1, ?_⟩
      have hblock := Make.capturesIn_block hb
      rw [Make.params_inv hps] at hblock
      exact hblock.congr fun x => by simp

theorem Make.capturesIn_exprs :
    ∀ {es : List Typed.Expr} {scope : Scope} {es' : List Expr} {ctx ctx' : Context},
      Makes (Make.exprs scope es) ctx es' ctx' →
      Typed.Expr.CapturesInList (scope.map Prod.fst) es
  | [], _, _, _, _, _ => trivial
  | e :: es, scope, es', ctx, ctx', h => by
      obtain ⟨a, ctx₁, ha, h₁⟩ := h.bind_inv
      obtain ⟨as, ctx₂, has, -⟩ := h₁.bind_inv
      exact ⟨Make.capturesIn_expr ha, Make.capturesIn_exprs has⟩

theorem Make.capturesIn_stmt :
    ∀ {s : Typed.Stmt} {scope scope' : Scope} {c : Stmt} {ctx ctx' : Context},
      Makes (Make.stmt scope s) ctx (c, scope') ctx' →
      s.CapturesIn (scope.map Prod.fst) ∧
        scope'.map Prod.fst = s.declared.map Prod.fst ++ scope.map Prod.fst
  | .declare k x t e s, scope, scope', c, ctx, ctx', h => by
      obtain ⟨a, ctx₁, ha, h₁⟩ := h.bind_inv
      obtain ⟨u, ctx₂, -, h₂⟩ := h₁.bind_inv
      obtain ⟨y, ctx₃, -, h₃⟩ := h₂.bind_inv
      obtain ⟨heq, -⟩ := h₃.pure_inv
      cases heq
      exact ⟨Make.capturesIn_expr (e := e) ha, rfl⟩
  | .assign x e s, scope, scope', c, ctx, ctx', h => by
      obtain ⟨y, ctx₁, -, h₁⟩ := h.bind_inv
      obtain ⟨a, ctx₂, ha, h₂⟩ := h₁.bind_inv
      obtain ⟨heq, -⟩ := h₂.pure_inv
      cases heq
      exact ⟨Make.capturesIn_expr (e := e) ha, rfl⟩
  | .if c t e s, scope, scope', c', ctx, ctx', h => by
      obtain ⟨a, ctx₁, ha, h₁⟩ := h.bind_inv
      obtain ⟨b, ctx₂, hb, h₂⟩ := h₁.bind_inv
      obtain ⟨d, ctx₃, hd, h₃⟩ := h₂.bind_inv
      obtain ⟨heq, -⟩ := h₃.pure_inv
      cases heq
      exact ⟨⟨Make.capturesIn_expr ha, Make.capturesIn_block hb, Make.capturesIn_block hd⟩, rfl⟩
  | .while c b s, scope, scope', c', ctx, ctx', h => by
      obtain ⟨a, ctx₁, ha, h₁⟩ := h.bind_inv
      obtain ⟨b', ctx₂, hb, h₂⟩ := h₁.bind_inv
      obtain ⟨heq, -⟩ := h₂.pure_inv
      cases heq
      exact ⟨⟨Make.capturesIn_expr ha, Make.capturesIn_block hb⟩, rfl⟩
  | .return es s, scope, scope', c, ctx, ctx', h => by
      obtain ⟨as, ctx₁, has, h₁⟩ := h.bind_inv
      obtain ⟨heq, -⟩ := h₁.pure_inv
      cases heq
      have hes : Typed.Expr.CapturesInList (scope.map Prod.fst) es := Make.capturesIn_exprs has
      exact ⟨hes, rfl⟩
  | .expr e s, scope, scope', c, ctx, ctx', h => by
      obtain ⟨a, ctx₁, ha, h₁⟩ := h.bind_inv
      obtain ⟨heq, -⟩ := h₁.pure_inv
      cases heq
      exact ⟨Make.capturesIn_expr (e := e) ha, rfl⟩

/-- Captures of a block of which code was made are in scope. -/
theorem Make.capturesIn_block :
    ∀ {ss : List Typed.Stmt} {scope : Scope} {b : List Stmt} {ctx ctx' : Context},
      Makes (Make.block scope ss) ctx b ctx' →
      Typed.Stmt.CapturesInBlock (scope.map Prod.fst) ss
  | [], _, _, _, _, _ => trivial
  | s :: ss, scope, b, ctx, ctx', h => by
      obtain ⟨⟨c, scope'⟩, ctx₁, hc, h₁⟩ := h.bind_inv
      obtain ⟨b', ctx₂, hb, -⟩ := h₁.bind_inv
      obtain ⟨hs, hscope⟩ := Make.capturesIn_stmt hc
      have hss := Make.capturesIn_block hb
      rw [hscope] at hss
      exact ⟨hs, hss⟩

end

/-! ## Functions and modules -/

/-- The empty context has nothing in its table. -/
theorem Context.tidy_empty : Context.Tidy {} := by
  intro x info hx
  simp [Context.get?] at hx

/-- **Code can be made of a well-typed function exactly if its captures are in scope**, and then it is
well typed, whatever the signatures of the code are, as long as they agree with those of the
program. -/
theorem Function.ofTyped_eq_ok {fs : Functions} (hfs : fs.Proper) {sigs : Validate.Signatures}
    (hsigs : SignaturesAgree fs sigs) {f : Typed.Function} (hf : f.WellTyped fs)
    (hcap : f.CapturesIn) :
    ∃ g, Function.ofTyped f = .ok g ∧ g.WellTyped sigs ∧ g.name = f.name ∧
      g.signature = Ty.counterpart f.ty := by
  have hag : Agrees {} [] [] := List.Forall₂.nil
  obtain ⟨xs, scope, ctx₁, hmps, hle₁, htidy₁, hag₁, hscope, hknown, htypes, hlen⟩ :=
    Make.makes_params f.params Context.tidy_empty hag hf.params_proper
  have hmrs := Makes.lift
    (Ty.ofTys_of_allProper (Rivulet.Ty.allProper_of_allSimple hf.results_simple) f.span) ctx₁
  have hproper : Typed.Scope.Proper (Typed.Scope.withParams f.params []) :=
    Typed.Scope.Proper.withParams (by intro p hp; cases hp) hf.params_proper
  have hcap' : Typed.Stmt.CapturesInBlock (scope.map Prod.fst) f.body := by
    rw [hag₁.names, Typed.Scope.names_withParams]
    exact Typed.Stmt.CapturesInBlock.congr hcap fun x => by simp [Typed.Scope.names]
  obtain ⟨b, ctx₂, hmb, hb⟩ := Make.makes_block hfs hsigs htidy₁ hproper hag₁ hf.body hcap'
  have hrun : Makes (Make.function f) {} (xs, Ty.counterparts f.results, b) ctx₂ :=
    hmps.bind (hmrs.bind (hmb.bind (Makes.pure _ _)))
  have hof : Function.ofTyped f
      = .ok ⟨f.name, xs, Ty.counterparts f.results, b, ctx₂, f.span⟩ := by
    unfold Function.ofTyped
    rw [hrun]
    rfl
  -- making the body adds locals, and leaves the types of those that are there
  have htypes₂ : xs.map ctx₂.typeOf = Ty.counterparts (f.params.map Typed.Param.ty) := by
    rw [← htypes]
    exact List.map_congr_left fun x hx => hb.le.typeOf (hknown x hx)
  refine ⟨_, hof, ⟨?_, ?_, ?_, ?_, ?_, ?_⟩, rfl, ?_⟩
  · exact fun x hx => hb.tidy.valid hx
  · exact fun x hx => hb.tidy.declared hx
  · exact fun x hx => hb.le.knows (hknown x hx)
  · show Ty.anyInvalid (Ty.counterparts f.results) = false
    rw [Ty.anyInvalid_counterparts]
    exact Rivulet.Ty.anyPoison_of_allSimple f.results hf.results_simple
  · -- in the body of a function, the parameters are alive and nothing else is
    refine hb.wellTyped (.refl ctx₂) ?_
    have hlives : Lives (((f.params.map Typed.Param.name).zip xs).reverse ++ [])
        (f.params.map Typed.Param.name ++ []) (xs ++ []) :=
      Lives.closure (by simpa using hlen) .nil
    rw [hscope]
    simpa using hlives
  · intro hne
    show Stmt.anyReturns b = true
    rw [hb.returns]
    refine hf.returns fun hnil => hne ?_
    show Ty.counterparts f.results = []
    rw [hnil]
    rfl
  · show Ty.func (xs.map ctx₂.typeOf) (Ty.counterparts f.results) = _
    rw [htypes₂]
    rfl

theorem Function.capturesIn_of_ofTyped {f : Typed.Function} {g : Function}
    (h : Function.ofTyped f = .ok g) : f.CapturesIn := by
  unfold Function.ofTyped at h
  cases hrun : (Make.function f).run {} with
  | error e => rw [hrun] at h; cases h
  | ok r =>
      obtain ⟨a, ctx⟩ := r
      have hmake : Makes (Make.function f) {} a ctx := hrun
      obtain ⟨⟨xs, scope⟩, ctx₁, hps, h₁⟩ := hmake.bind_inv
      obtain ⟨rs, ctx₂, -, h₂⟩ := h₁.bind_inv
      obtain ⟨b, ctx₃, hb, -⟩ := h₂.bind_inv
      have hblock := Make.capturesIn_block hb
      rw [Make.params_inv hps] at hblock
      exact Typed.Stmt.CapturesInBlock.congr hblock fun x => by simp

/-- A list of results that are all there, and each of them. -/
theorem mapM_ofTyped_eq_ok_iff (fs : List Typed.Function) (gs : List Function) :
    fs.mapM Function.ofTyped = .ok gs ↔
      List.Forall₂ (fun f g => Function.ofTyped f = .ok g) fs gs := by
  induction fs generalizing gs with
  | nil =>
      rw [List.mapM_nil, List.forall₂_nil_left_iff]
      exact ⟨fun h => by cases h; rfl, fun h => by rw [h]; rfl⟩
  | cons f fs ih =>
      rw [List.mapM_cons, List.forall₂_cons_left_iff]
      cases hf : Function.ofTyped f with
      | error e =>
          refine ⟨fun h => (by cases h), ?_⟩
          rintro ⟨g, gs', hg, -⟩
          cases hg
      | ok g =>
          cases hfs : fs.mapM Function.ofTyped with
          | error e =>
              refine ⟨fun h => (by cases h), ?_⟩
              rintro ⟨g', gs', -, hgs, -⟩
              rw [(ih gs').2 hgs] at hfs
              cases hfs
          | ok gs' =>
              constructor
              · intro h
                cases h
                exact ⟨g, gs', rfl, (ih gs').1 hfs, rfl⟩
              · rintro ⟨g', gs'', hg, hgs, rfl⟩
                rw [(ih gs'').2 hgs] at hfs
                cases hg
                cases hfs
                rfl

theorem Module.ofTyped_eq_ok_iff {p : Typed.Program} {m : Module} :
    Module.ofTyped p = .ok m ↔
      List.Forall₂ (fun f g => Function.ofTyped f = .ok g) p.functions m.functions := by
  rw [← mapM_ofTyped_eq_ok_iff]
  unfold Module.ofTyped
  cases p.functions.mapM Function.ofTyped with
  | error e => exact ⟨fun h => (by cases h), fun h => (by cases h)⟩
  | ok gs =>
      obtain ⟨hs⟩ := m
      constructor
      · intro h
        cases h
        rfl
      · intro h
        cases h
        rfl

/-- The counterparts of the signatures of a program. -/
def counterpartSignatures (fs : Functions) : Validate.Signatures :=
  fs.map fun p => (p.1, .func (Ty.counterparts p.2.params) (Ty.counterparts p.2.results))

theorem signaturesAgree_counterparts (fs : Functions) :
    SignaturesAgree fs (counterpartSignatures fs) := by
  intro f sig hf
  induction fs with
  | nil => cases hf
  | cons p fs ih =>
      obtain ⟨name, sig'⟩ := p
      simp only [counterpartSignatures, List.map_cons, List.lookup_cons] at hf ih ⊢
      cases hname : f == name with
      | true =>
          simp only [hname, Option.some.injEq] at hf
          rw [hf]
      | false =>
          simp only [hname] at hf
          exact ih hf

section Programs

variable {fs : Functions} {p : Typed.Program} (hp : p.WellTyped fs)

include hp

/-- **Code can be made of a well-typed program exactly if all captures are in scope.** -/
theorem Module.exists_ofTyped_iff :
    (∃ m, Module.ofTyped p = .ok m) ↔ ∀ f ∈ p.functions, f.CapturesIn := by
  constructor
  · rintro ⟨m, hm⟩ f hf
    obtain ⟨g, -, hg⟩ := mem_of_forall₂_right (Module.ofTyped_eq_ok_iff.1 hm).flip hf
    exact Function.capturesIn_of_ofTyped hg
  · intro hcap
    have hall : ∀ f ∈ p.functions, ∃ g, Function.ofTyped f = .ok g := by
      intro f hf
      obtain ⟨g, hg, -⟩ := Function.ofTyped_eq_ok hp.proper (signaturesAgree_counterparts fs)
        (hp.functions f hf) (hcap f hf)
      exact ⟨g, hg⟩
    have hlist : ∀ fs : List Typed.Function, (∀ f ∈ fs, ∃ g, Function.ofTyped f = .ok g) →
        ∃ gs, List.Forall₂ (fun f g => Function.ofTyped f = .ok g) fs gs := by
      intro fs hfs
      induction fs with
      | nil => exact ⟨[], .nil⟩
      | cons f fs ih =>
          simp only [List.mem_cons, forall_eq_or_imp] at hfs
          obtain ⟨g, hg⟩ := hfs.1
          obtain ⟨gs, hgs⟩ := ih hfs.2
          exact ⟨g :: gs, .cons hg hgs⟩
    obtain ⟨gs, hgs⟩ := hlist p.functions hall
    exact ⟨⟨gs⟩, Module.ofTyped_eq_ok_iff.2 hgs⟩

/-- The signatures of the code are the counterparts of those of the program. -/
theorem Module.signaturesAgree {m : Module} (hm : Module.ofTyped p = .ok m) :
    SignaturesAgree fs (Validate.signatures m) := by
  have hforall := Module.ofTyped_eq_ok_iff.1 hm
  have hsame : ∀ {fs' : List Typed.Function} {gs : List Function},
      (∀ f ∈ fs', f ∈ p.functions) →
      List.Forall₂ (fun f g => Function.ofTyped f = .ok g) fs' gs →
      gs.map (fun g => (g.name, g.signature))
        = fs'.map fun f => (f.name, Ty.counterpart f.ty) := by
    intro fs' gs hsub h
    induction h with
    | nil => rfl
    | @cons f g _ _ hfg _ ih =>
        simp only [List.mem_cons, forall_eq_or_imp] at hsub
        obtain ⟨g', hg', -, hname, hsig⟩ := Function.ofTyped_eq_ok hp.proper
          (signaturesAgree_counterparts fs) (hp.functions f hsub.1)
          (Function.capturesIn_of_ofTyped hfg)
        rw [hfg, Except.ok.injEq] at hg'
        subst hg'
        rw [List.map_cons, List.map_cons, hname, hsig, ih hsub.2]
  intro f sig hf
  rw [hp.signature f] at hf
  have htable : Validate.signatures m = counterpartSignatures p.functionTypes := by
    rw [Validate.signatures, hsame (fun _ h => h) hforall, counterpartSignatures,
      Typed.Program.functionTypes, List.map_reverse, List.map_map]
    rfl
  rw [htable]
  exact signaturesAgree_counterparts _ f sig hf

/-- **The code of a well-typed program is a well-typed module.** -/
theorem Module.wellTyped_of_ofTyped {m : Module} (hm : Module.ofTyped p = .ok m) : m.WellTyped := by
  intro g hg
  obtain ⟨f, hf, hfg⟩ := mem_of_forall₂_right (Module.ofTyped_eq_ok_iff.1 hm) hg
  obtain ⟨g', hg', hwt, -⟩ := Function.ofTyped_eq_ok hp.proper (Module.signaturesAgree hp hm)
    (hp.functions f hf) (Function.capturesIn_of_ofTyped hfg)
  rw [hfg, Except.ok.injEq] at hg'
  rw [hg']
  exact hwt

end Programs

end Rivulet.Ir
