import Rivulet.Proofs.Check.Rules
import Rivulet.Proofs.Source.CaptureWalk

set_option autoImplicit false

/-! # The checker is sound

A program that the checker has nothing to report about is well typed. The walk is over the written
program before captures are resolved, because what is alive inside of a closure are its captures,
and these are read off its free names.

The invariant between names is `Sees`: every local in scope is visible to the analysis of captures,
and every local in scope that the tree uses is alive. Under a closure the second half is restored by
the captures: a used local that is no parameter is free in the closure, hence captured. -/

namespace Rivulet.Check

open Source (captures mem_captures_iff)

/-- What is visible to the analysis of captures, and what is alive, for a tree with the free names
`free`. -/
structure Sees (env : Env) (visible alive free : List String) : Prop where
  visible : env.scope.names ⊆ visible
  alive : ∀ x ∈ free, x ∈ env.scope.names → x ∈ alive

namespace Sees

variable {env : Env} {visible alive free free' : List String}

theorem mono (h : Sees env visible alive free) (hsub : free' ⊆ free) :
    Sees env visible alive free' :=
  ⟨h.visible, fun x hx => h.alive x (hsub hx)⟩

theorem left (h : Sees env visible alive (free ++ free')) : Sees env visible alive free :=
  h.mono (List.subset_append_left _ _)

theorem right (h : Sees env visible alive (free ++ free')) : Sees env visible alive free' :=
  h.mono (List.subset_append_right _ _)

/-- The captures of a closure are alive where it stands. -/
theorem captured (h : Sees env visible alive free) :
    ∀ x ∈ captures visible free, x ∈ env.scope.names → x ∈ alive :=
  fun x hx hscope => h.alive x (mem_captures_iff.1 hx).1 hscope

/-- Under a closure whose parameters have the names `xs`: what is alive are the parameters and the
captures. -/
theorem closure (h : Sees env visible alive free) {ps : List Typed.Param} {xs : List String}
    (hxs : ps.map Typed.Param.name = xs) (hmem : ∀ x, x ∈ free ↔ x ∈ free' ∧ x ∉ xs) :
    Sees (env.declareParams (declarations ps)) (xs ++ visible) (xs ++ captures visible free)
      free' := by
  subst hxs
  have hnames : (env.declareParams (declarations ps)).scope.names
      = (ps.map Typed.Param.name).reverse ++ env.scope.names := by
    rw [Env.scope_declareParams, Typed.Scope.names_withParams]
  refine ⟨?_, ?_⟩
  · rw [hnames]
    intro x hx
    rcases List.mem_append.1 hx with hx | hx
    · exact List.mem_append_left _ (List.mem_reverse.1 hx)
    · exact List.mem_append_right _ (h.visible hx)
  · intro x hfree hx
    rw [hnames] at hx
    by_cases hps : x ∈ ps.map Typed.Param.name
    · exact List.mem_append_left _ hps
    · -- a local of the surroundings: it is free in the closure and visible, so it is captured
      have hx' : x ∈ env.scope.names :=
        (List.mem_append.1 hx).resolve_left fun hx => hps (List.mem_reverse.1 hx)
      refine List.mem_append_right _ (mem_captures_iff.2 ⟨?_, h.visible hx'⟩)
      exact (hmem x).2 ⟨hfree, hps⟩

/-- Behind a statement that declares the names `ys`. -/
theorem behind (h : Sees env visible alive free) {env' : Env} {ys : List String}
    (hnames : env'.scope.names = ys ++ env.scope.names)
    (hmem : ∀ x, x ∈ free' → x ∉ ys → x ∈ free) :
    Sees env' (ys ++ visible) (ys ++ alive) free' := by
  refine ⟨?_, ?_⟩
  · rw [hnames]
    intro x hx
    rcases List.mem_append.1 hx with hx | hx
    · exact List.mem_append_left _ hx
    · exact List.mem_append_right _ (h.visible hx)
  · intro x hfree hx
    rw [hnames] at hx
    by_cases hys : x ∈ ys
    · exact List.mem_append_left _ hys
    · have hx' : x ∈ env.scope.names := (List.mem_append.1 hx).resolve_left hys
      exact List.mem_append_right _ (h.alive x (hmem x hfree hys) hx')

end Sees

/-! ## Hints to the right of a map -/

/-- A hint to the right of a map matters to closures with an expression only. -/
theorem checkExpr_mapOver {env : Env} {t : Ty} {e : Source.Expr}
    (h : ∀ ps b cs s, e ≠ .lambda ps b cs s) :
    checkExpr env (.mapOver t) e = checkExpr env .none e := by
  cases e with
  | lambda ps b cs s => exact absurd rfl (h ps b cs s)
  | seq es s => cases es <;> rfl
  | _ => rfl

/-- The type of a closure is a function type, whatever was found. -/
theorem checkExpr_lambda_ty {env : Env} {hint : Hint} {ps : List Source.OpenParam} {b : Source.Expr}
    {cs : List String} {s : Span} :
    ∃ ts rs, (checkExpr env hint (.lambda ps b cs s)).value.ty = .func ts rs := by
  simp only [checkExpr, Report.value_bind, Report.value_pure, lambda]
  split
  · exact ⟨_, _, rfl⟩
  · exact ⟨_, _, rfl⟩

/-- The hint for the right operand of an operator makes no difference, unless it is that of a map and
the operand is a closure. Then its type is not poison, whatever was found. -/
theorem checkExpr_right_cases (env : Env) (op : BinaryOp) (t : Ty) (r : Source.Expr) :
    checkExpr env (if op = .map then .mapOver t else .none) r = checkExpr env .none r ∨
      op = .map ∧ (checkExpr env (.mapOver t) r).value.ty ≠ .poison := by
  by_cases hop : op = .map
  · by_cases hlam : ∃ ps b cs s, r = .lambda ps b cs s
    · obtain ⟨ps, b, cs, s, rfl⟩ := hlam
      obtain ⟨ts, rs, hty⟩ := checkExpr_lambda_ty
      refine .inr ⟨hop, ?_⟩
      rw [hty]
      simp
    · rw [if_pos hop]
      exact .inl (checkExpr_mapOver fun ps b cs s heq => hlam ⟨ps, b, cs, s, heq⟩)
  · rw [if_neg hop]
    exact .inl rfl

/-- The hint for the right operand of an accepted operator is a proper one, or might as well be. -/
theorem exists_proper_hint_right {env : Env} {op : BinaryOp} {l : Typed.Expr} {r : Source.Expr}
    {span : Span} (hl : l.ty.proper = true)
    (h : (binary op l (checkExpr env (if op = .map then .mapOver l.ty else .none) r).value
      span).findings = []) :
    ∃ hint : Hint, hint.Proper ∧
      checkExpr env (if op = .map then .mapOver l.ty else .none) r = checkExpr env hint r := by
  rcases checkExpr_right_cases env op l.ty r with heq | ⟨rfl, hne⟩
  · exact ⟨.none, Hint.proper_none, heq⟩
  · rw [if_pos rfl] at h ⊢
    obtain ⟨e, hty⟩ := ((binary_map_silent h).resolve_left (Ty.ne_poison_of_proper hl)).resolve_left
      hne
    exact ⟨_, Hint.proper_mapOver hty hl, rfl⟩

/-! ## Closures -/

/-- A closure whose body is an expression. -/
theorem lambda_wellTyped {env : Env} {alive names cs : List String} {ps : List Typed.Param}
    {v : Typed.Expr} {span : Span} (hps : Ty.allProper (ps.map Typed.Param.ty) = true)
    (hnames : ps.map Typed.Param.name = names)
    (hcs : ∀ x ∈ cs, x ∈ env.scope.names → x ∈ alive) (hp : v.ty.proper = true)
    (hv : v.WellTyped env.functions (env.scope.withParams ps) (names ++ cs)) :
    (lambda ps v cs span).WellTyped env.functions env.scope alive := by
  subst hnames
  unfold lambda
  split
  · exact ⟨hps, rfl, hcs, ⟨hv, trivial⟩, fun h => absurd rfl h, rfl⟩
  · rename_i hunit
    have hret : returned v.ty.toResults [v] = v.ty.toResults := by
      simp only [returned]
      split
      · rfl
      · -- at most one result: the type of the body is not a tuple, and stands for itself
        rename_i hlen
        cases hty : v.ty with
        | unit => exact absurd hty hunit
        | tuple ts =>
            rw [hty] at hp hlen
            simp only [Ty.proper, Bool.and_eq_true, decide_eq_true_eq] at hp
            simp only [Ty.toResults] at hlen
            omega
        | _ => rfl
    refine ⟨hps, Ty.allSimple_toResults hp, hcs, ⟨⟨⟨hv, trivial⟩, hret⟩, trivial⟩, ?_, rfl⟩
    exact fun _ => rfl

/-! ## The walk -/

mutual

/-- **An expression about which nothing is reported is well typed.** -/
theorem checkExpr_wellTyped {env : Env} {hint : Hint} {visible alive : List String}
    (henv : env.Proper) (hh : hint.Proper) :
    ∀ {e : Source.Expr}, e.Whole → Sees env visible alive (e.free []) →
      (checkExpr env hint (e.resolve visible)).findings = [] →
      (checkExpr env hint (e.resolve visible)).value.WellTyped env.functions env.scope alive
  | .literal v s, _, _, _ => literal_wellTyped v
  | .name x s, _, hsees, h =>
      name_wellTyped (hsees.alive x (by simp [Source.Expr.free, Source.freeName])) h
  | .unary op e s, hw, hsees, h => by
      simp only [Source.Expr.resolve, checkExpr, Report.findings_bind,
        List.append_eq_nil_iff] at h
      have he := checkExpr_wellTyped (e := e) henv Hint.proper_none hw hsees h.1
      exact unary_wellTyped he (he.proper henv.functions henv.locals) h.2
  | .binary op l r s, hw, hsees, h => by
      simp only [Source.Expr.resolve, checkExpr, Report.findings_bind,
        List.append_eq_nil_iff] at h
      obtain ⟨hlf, hrf, hbf⟩ := h
      have hl := checkExpr_wellTyped henv Hint.proper_none hw.1 hsees.left hlf
      have hlp := hl.proper henv.functions henv.locals
      have hr : (checkExpr env
          (if op = .map then .mapOver (checkExpr env .none (l.resolve visible)).value.ty else .none)
          (r.resolve visible)).value.WellTyped env.functions env.scope alive := by
        obtain ⟨hint, hproper, heq⟩ := exists_proper_hint_right hlp hbf
        rw [heq] at hrf ⊢
        exact checkExpr_wellTyped henv hproper hw.2 hsees.right hrf
      exact binary_wellTyped hl hlp hr (hr.proper henv.functions henv.locals) hbf
  | .seq [] s, _, _, h => untypedEmpty_wellTyped hh h
  | .seq (e :: es) s, hw, hsees, h => by
      simp only [Source.Expr.resolve, Source.Expr.resolveList, checkExpr, Report.findings_bind,
        List.append_eq_nil_iff] at h
      obtain ⟨hef, hesf, hsf⟩ := h
      have he := checkExpr_wellTyped henv hh.element hw.1 hsees.left hef
      have hes := checkExprs_wellTyped henv (fun _ => hh.element) hw.2 hsees.right hesf
      refine seq_wellTyped (fun a ha => ?_) hsf
      rcases List.mem_cons.1 ha with rfl | ha
      · exact ⟨he, he.proper henv.functions henv.locals⟩
      · exact ⟨hes a ha, (hes a ha).proper henv.functions henv.locals⟩
  | .emptySeq t s, _, _, _ => ⟨trivial, typeOf t, proper_typeOf t, rfl, by simp⟩
  | .index e i s, hw, hsees, h => by
      simp only [Source.Expr.resolve, checkExpr, Report.findings_bind,
        List.append_eq_nil_iff] at h
      have he := checkExpr_wellTyped henv Hint.proper_none hw.1 hsees.left h.1
      have hi := checkExpr_wellTyped henv Hint.proper_none hw.2 hsees.right h.2.1
      exact index_wellTyped he (he.proper henv.functions henv.locals) hi
        (hi.proper henv.functions henv.locals) h.2.2
  | .call f as s, hw, hsees, h => by
      simp only [Source.Expr.resolve, checkExpr] at h ⊢
      cases hs : special? env (f.resolve visible) with
      | some b =>
          simp only [hs, Report.findings_bind, List.append_eq_nil_iff] at h
          have has := checkExprs_wellTyped henv (fun _ => Hint.proper_none) hw.2 hsees.right h.1
          exact specialCall_wellTyped (special?_eq_some hs)
            (fun a ha => ⟨has a ha, (has a ha).proper henv.functions henv.locals⟩) h.2
      | none =>
          simp only [hs, Report.findings_bind, List.append_eq_nil_iff] at h
          obtain ⟨hff, hsf, hasf, hcf⟩ := h
          have hf := checkExpr_wellTyped henv Hint.proper_none hw.1 hsees.left hff
          have hfp := hf.proper henv.functions henv.locals
          -- nothing was said about the callee, so it is a function, whose parameters are the hints
          obtain ⟨ps, rs, hty, hsig⟩ := signature?_silent hfp hsf
          simp only [hsig, Option.map_some, Option.getD_some] at hasf hcf
          simp only [Report.value_bind, hsig, Option.map_some, Option.getD_some]
          have hhints : ∀ i : Nat, (Hint.ofOption ps[i]?).Proper := by
            intro i
            refine Hint.proper_ofOption fun t ht => ?_
            rw [hty] at hfp
            simp only [Ty.proper, Bool.and_eq_true] at hfp
            exact (Ty.allProper_iff ps).1 hfp.1 t (List.mem_of_getElem? ht)
          have has := checkExprs_wellTyped henv hhints hw.2 hsees.right hasf
          exact call_wellTyped hf hfp hty
            (fun a ha => ⟨has a ha, (has a ha).proper henv.functions henv.locals⟩) hcf
  | .lambda ps b cs s, hw, hsees, h => by
      simp only [Source.Expr.resolve, checkExpr, Report.findings_bind, List.append_eq_nil_iff,
        Report.findings_pure, and_true] at h
      obtain ⟨hpf, hbf⟩ := h
      obtain ⟨hproper, hnames⟩ := openParams_silent hh hpf
      simp only [Source.Expr.resolve, checkExpr, Report.value_bind, Report.value_pure]
      have hsees' : Sees env visible alive (b.free (ps.map Source.OpenParam.name)) :=
        hsees.mono (by simp [Source.Expr.free])
      have hinner := hsees'.closure hnames fun x => Source.Expr.mem_free_iff _ b
      have henv' := henv.declareParams hproper
      have hb := checkExpr_wellTyped (e := b) henv' Hint.proper_none hw hinner hbf
      have hbp := hb.proper henv'.functions henv'.locals
      rw [Env.functions_declareParams, Env.scope_declareParams] at hb
      exact lambda_wellTyped hproper hnames hsees'.captured hbp hb
  | .block ps rs b cs s, hw, hsees, h => by
      simp only [Source.Expr.resolve, checkExpr, Report.findings_bind, List.append_eq_nil_iff] at h
      obtain ⟨hbf, hret⟩ := h
      split at hret
      · simp [reject] at hret
      -- the body does not fall off its end, unless the closure has no results
      rename_i hfalls
      simp only [Source.Expr.resolve, checkExpr, Report.value_bind, if_neg hfalls]
      have hsees' : Sees env visible alive (Source.Stmt.freeBlock (ps.map Source.Param.name) b) :=
        hsees.mono (by simp [Source.Expr.free])
      have hinner := hsees'.closure (name_params ps) fun x => Source.Stmt.mem_freeBlock_iff _ b
      have hproper := allProper_params ps
      have henv' := henv.declareParams hproper
      have henv'' : Env.Proper { env.declareParams (declarations (params ps)) with
          results := typesOf rs } := ⟨henv'.functions, henv'.locals, allSimple_typesOf rs⟩
      have hb := checkBlock_wellTyped henv'' hw ⟨hinner.visible, hinner.alive⟩ hbf
      have hscope : Env.scope { env.declareParams (declarations (params ps)) with
          results := typesOf rs } = env.scope.withParams (params ps) := Env.scope_declareParams _ _
      rw [hscope] at hb
      refine ⟨hproper, allSimple_typesOf rs, hsees'.captured, ?_, ?_, rfl⟩
      · rw [name_params, ← Env.functions_declareParams env (declarations (params ps))]
        exact hb
      · intro hrs
        by_contra hnot
        exact hfalls (by simpa [hrs] using hnot)
  | .error s, hw, _, _ => hw.elim

/-- Expressions about which nothing is reported are well typed. -/
theorem checkExprs_wellTyped {env : Env} {hints : Nat → Hint} {visible alive : List String}
    (henv : env.Proper) (hh : ∀ i, (hints i).Proper) :
    ∀ {es : List Source.Expr}, Source.Expr.WholeList es →
      Sees env visible alive (Source.Expr.freeList [] es) →
      (checkExprs env hints (Source.Expr.resolveList visible es)).findings = [] →
      ∀ e ∈ (checkExprs env hints (Source.Expr.resolveList visible es)).value,
        e.WellTyped env.functions env.scope alive
  | [], _, _, _ => by simp [Source.Expr.resolveList, checkExprs]
  | e :: es, hw, hsees, h => by
      simp only [Source.Expr.resolveList, checkExprs, Report.findings_bind,
        List.append_eq_nil_iff] at h
      have he := checkExpr_wellTyped henv (hh 0) hw.1 hsees.left h.1
      have hes := checkExprs_wellTyped henv (fun i => hh (i + 1)) hw.2 hsees.right h.2.1
      simp only [Source.Expr.resolveList, checkExprs, Report.value_bind, Report.value_pure,
        List.mem_cons, forall_eq_or_imp]
      exact ⟨he, hes⟩

/-- **A statement about which nothing is reported is well typed**, and what is known behind it fits
what it declares. A statement that could not be parsed is left out. -/
theorem checkStmt_wellTyped {env : Env} {visible alive : List String} (henv : env.Proper) :
    ∀ {s : Source.Stmt}, s.Whole → Sees env visible alive (s.free []) →
      (checkStmt env (s.resolve visible)).findings = [] →
      ((checkStmt env (s.resolve visible)).value = (none, env) ∧ s.declared = []) ∨
        ∃ s' env', (checkStmt env (s.resolve visible)).value = (some s', env') ∧
          s'.WellTyped env.functions env.results env.scope alive ∧
          s'.declared.map Prod.fst = s.declared ∧ env'.Proper ∧
          env'.functions = env.functions ∧ env'.results = env.results ∧
          env'.scope = s'.declared ++ env.scope
  | .declare c x t e s, hw, hsees, h => by
      simp only [Source.Stmt.resolve, checkStmt, Report.findings_bind,
        List.append_eq_nil_iff] at h
      have hhint : (Hint.ofOption (t.map typeOf)).Proper := by
        refine Hint.proper_ofOption fun u hu => ?_
        obtain ⟨w, -, rfl⟩ := Option.map_eq_some_iff.1 hu
        exact proper_typeOf w
      have he := checkExpr_wellTyped henv hhint hw hsees h.1
      have hp := he.proper henv.functions henv.locals
      have hty := declaration_silent hp h.2.1
      refine Or.inr ⟨_, _, rfl, ⟨he, hty.symm⟩, rfl, henv.declare ?_, rfl, rfl, rfl⟩
      rw [hty]
      exact hp
  | .assign x e s, hw, hsees, h => by
      simp only [Source.Stmt.resolve, checkStmt, Report.findings_bind,
        List.append_eq_nil_iff] at h
      have hhint : (Hint.ofOption ((env.local? x).map Local.ty)).Proper := by
        refine Hint.proper_ofOption fun u hu => ?_
        rw [← Env.lookup_scope] at hu
        exact henv.locals.lookup hu
      have he := checkExpr_wellTyped henv hhint hw hsees.right h.1
      have hx := assignment_silent henv
        (hsees.alive x (by simp [Source.Stmt.free, Source.freeName]))
        (he.proper henv.functions henv.locals) h.2.1
      exact Or.inr ⟨_, _, rfl, ⟨he, hx⟩, rfl, henv, rfl, rfl, rfl⟩
  | .ifThen c b s, hw, hsees, h => by
      simp only [Source.Stmt.resolve, checkStmt, Report.findings_bind,
        List.append_eq_nil_iff] at h
      have hc := checkExpr_wellTyped henv Hint.proper_none hw.1 hsees.left h.1
      have hbool := eq_of_expect (e := .bool) rfl (hc.proper henv.functions henv.locals) h.2.1
      have hb := checkBlock_wellTyped henv hw.2 hsees.right h.2.2.1
      exact Or.inr ⟨_, _, rfl, ⟨hc, hbool.symm, hb, trivial⟩, rfl, henv, rfl, rfl, rfl⟩
  | .ifElse c b d s, hw, hsees, h => by
      simp only [Source.Stmt.resolve, checkStmt, Report.findings_bind,
        List.append_eq_nil_iff] at h
      have hc := checkExpr_wellTyped henv Hint.proper_none hw.1 hsees.left.left h.1
      have hbool := eq_of_expect (e := .bool) rfl (hc.proper henv.functions henv.locals) h.2.1
      have hb := checkBlock_wellTyped henv hw.2.1 hsees.left.right h.2.2.1
      have hd := checkBlock_wellTyped henv hw.2.2 hsees.right h.2.2.2.1
      exact Or.inr ⟨_, _, rfl, ⟨hc, hbool.symm, hb, hd⟩, rfl, henv, rfl, rfl, rfl⟩
  | .while c b s, hw, hsees, h => by
      simp only [Source.Stmt.resolve, checkStmt, Report.findings_bind,
        List.append_eq_nil_iff] at h
      have hc := checkExpr_wellTyped henv Hint.proper_none hw.1 hsees.left h.1
      have hbool := eq_of_expect (e := .bool) rfl (hc.proper henv.functions henv.locals) h.2.1
      have hb := checkBlock_wellTyped henv hw.2 hsees.right h.2.2.1
      exact Or.inr ⟨_, _, rfl, ⟨hc, hbool.symm, hb⟩, rfl, henv, rfl, rfl, rfl⟩
  | .return es s, hw, hsees, h => by
      simp only [Source.Stmt.resolve, checkStmt, Report.findings_bind,
        List.append_eq_nil_iff] at h
      have hhints : ∀ i : Nat, (Hint.ofOption
          (if (Source.Expr.resolveList visible es).length = env.results.length then env.results
            else [])[i]?).Proper := by
        intro i
        refine Hint.proper_ofOption fun t ht => ?_
        have hmem := List.mem_of_getElem? ht
        split at hmem
        · exact ((Ty.allSimple_iff _).1 henv.results t hmem).1
        · cases hmem
      have hes := checkExprs_wellTyped henv hhints hw hsees h.1
      have hret := returned_of_silent
        (fun e he => (hes e he).proper henv.functions henv.locals) h.2.1
      exact Or.inr ⟨_, _, rfl, ⟨(Typed.Expr.wellTypedList_iff _).2 hes, hret⟩, rfl, henv, rfl, rfl, rfl⟩
  | .expr e s, hw, hsees, h => by
      simp only [Source.Stmt.resolve, checkStmt, Report.findings_bind,
        List.append_eq_nil_iff] at h
      have he := checkExpr_wellTyped henv Hint.proper_none hw hsees h.1
      exact Or.inr ⟨_, _, rfl, he, rfl, henv, rfl, rfl, rfl⟩
  | .error s, _, _, _ => Or.inl ⟨rfl, rfl⟩

/-- **A block about which nothing is reported is well typed.** -/
theorem checkBlock_wellTyped {env : Env} {visible alive : List String} (henv : env.Proper) :
    ∀ {ss : List Source.Stmt}, Source.Stmt.WholeBlock ss →
      Sees env visible alive (Source.Stmt.freeBlock [] ss) →
      (checkBlock env (Source.Stmt.resolveBlock visible ss)).findings = [] →
      Typed.Stmt.WellTypedBlock env.functions env.results env.scope alive
        (checkBlock env (Source.Stmt.resolveBlock visible ss)).value
  | [], _, _, _ => trivial
  | s :: ss, hw, hsees, h => by
      simp only [Source.Stmt.resolveBlock, checkBlock, Report.findings_bind,
        List.append_eq_nil_iff] at h
      simp only [Source.Stmt.resolveBlock, checkBlock, Report.value_bind, Report.value_pure]
      obtain ⟨hsf, hssf, -⟩ := h
      rcases checkStmt_wellTyped henv hw.1 hsees.left hsf with
        ⟨hval, hdecl⟩ | ⟨s', env', hval, hs', hdecl, henv', hfs, hrs, hscope⟩
      · rw [hval, hdecl] at hssf ⊢
        refine checkBlock_wellTyped henv hw.2 (hsees.right.mono fun x hx => ?_) hssf
        rw [hdecl]
        exact hx
      rw [hval] at hssf ⊢
      have hsees' : Sees env' (s.declared ++ visible) (s.declared ++ alive)
          (Source.Stmt.freeBlock [] ss) :=
        hsees.right.behind (by rw [hscope, ← hdecl]; simp [Typed.Scope.names]) fun x hx hnot =>
          (Source.Stmt.mem_freeBlock_iff _ ss).2 ⟨hx, by simpa using hnot⟩
      have hss := checkBlock_wellTyped henv' hw.2 hsees' hssf
      rw [hfs, hrs, hscope] at hss
      refine ⟨hs', ?_⟩
      rw [hdecl]
      exact hss

end

/-! ## Programs -/

/-- A table made of functions in which later definitions stand first is searched from the end. -/
theorem lookup_functions {α : Type} (g : Source.Function → α) (fs : List Source.Function)
    (name : String) :
    (fs.map fun f => (f.name, g f)).reverse.lookup name
      = (fs.reverse.find? fun f => name == f.name).map g := by
  rw [← List.map_reverse]
  induction fs.reverse with
  | nil => rfl
  | cons f fs ih =>
      simp only [List.map_cons, List.lookup_cons, List.find?_cons]
      split
      · rfl
      · exact ih

/-- Reports made one after the other for the elements of a list. -/
theorem value_mapM {ε α β : Type} (g : α → Report ε β) (as : List α) :
    (as.mapM g).value = as.map fun a => (g a).value := by
  induction as with
  | nil => rfl
  | cons a as ih => simp [List.mapM_cons, ih]

theorem findings_mapM {ε α β : Type} (g : α → Report ε β) (as : List α) :
    (as.mapM g).findings = as.flatMap fun a => (g a).findings := by
  induction as with
  | nil => rfl
  | cons a as ih => simp [List.mapM_cons, ih]

theorem functions_proper (p : Source.Program) : Typed.Functions.Proper (signatures p) := by
  intro q hq
  simp only [signatures, List.mem_reverse, List.mem_map] at hq
  obtain ⟨f, -, rfl⟩ := hq
  refine ⟨?_, ?_⟩
  · rw [Ty.allProper_iff]
    intro t ht
    simp only [signature, List.mem_map] at ht
    obtain ⟨w, -, rfl⟩ := ht
    exact proper_typeOf w.ty
  · rw [Ty.allSimple_iff]
    intro t ht
    simp only [signature, List.mem_map] at ht
    obtain ⟨w, -, rfl⟩ := ht
    exact ⟨proper_typeOf w, isSimple_typeOf w⟩

/-- The parameters that a function is checked with: its own names, the types of the signature. If the
signature has fewer parameters, which is that of a later definition of the same name, the last
parameters are dropped. -/
def checkedParams (sig : Signature) (f : Source.Function) : List Typed.Param :=
  f.params.zipWith (fun p t => (⟨p.name, t, p.span⟩ : Typed.Param)) sig.params

theorem name_checkedParams (sig : Signature) (f : Source.Function) :
    (checkedParams sig f).map Typed.Param.name
      = (f.params.map Source.Param.name).take sig.params.length := by
  unfold checkedParams
  generalize f.params = ps
  generalize sig.params = ts
  induction ps generalizing ts with
  | nil => simp
  | cons p ps ih =>
      cases ts with
      | nil => simp
      | cons t ts => simp [ih]

theorem ty_checkedParams (sig : Signature) (f : Source.Function) :
    (checkedParams sig f).map Typed.Param.ty = sig.params.take f.params.length := by
  unfold checkedParams
  generalize f.params = ps
  generalize sig.params = ts
  induction ps generalizing ts with
  | nil => simp
  | cons p ps ih =>
      cases ts with
      | nil => simp
      | cons t ts => simp [ih]

/-- The signature that a function is checked with. -/
def signatureOf (fs : List (String × Signature)) (f : Source.Function) : Signature :=
  (fs.lookup f.name).getD ⟨[], []⟩

theorem checkFunction_value (fs : List (String × Signature)) (f : Source.Function) :
    (checkFunction fs f).value
      = ⟨f.name, checkedParams (signatureOf fs f) f, (signatureOf fs f).results,
          (checkBlock ((Env.mk fs [] (signatureOf fs f).results).declareParams
            (declarations (checkedParams (signatureOf fs f) f))) f.body).value, f.span⟩ := by
  simp only [checkFunction, signatureOf, checkedParams]
  split
  · simp only [Report.value_bind]
    split <;> rfl
  · simp only [Report.value_bind]
    split <;> rfl

theorem checkFunction_silent {fs : List (String × Signature)} {f : Source.Function}
    (h : (checkFunction fs f).findings = []) :
    (checkBlock ((Env.mk fs [] (signatureOf fs f).results).declareParams
        (declarations (checkedParams (signatureOf fs f) f))) f.body).findings = [] ∧
      ¬ (!(signatureOf fs f).results.isEmpty && !Typed.Stmt.anyReturns
        (checkBlock ((Env.mk fs [] (signatureOf fs f).results).declareParams
          (declarations (checkedParams (signatureOf fs f) f))) f.body).value) = true := by
  simp only [checkFunction] at h
  split at h
  · simp [reject] at h
  · simp only [Report.findings_bind, List.append_eq_nil_iff] at h
    refine ⟨h.1, fun hfalls => ?_⟩
    have hrest := h.2
    split at hrest
    · simp [reject] at hrest
    · rename_i hnot
      exact hnot hfalls

/-- The parameters that a function is checked with are among its own. -/
theorem name_checkedParams_subset (sig : Signature) (f : Source.Function) :
    (checkedParams sig f).map Typed.Param.name ⊆ f.params.map Source.Param.name := by
  rw [name_checkedParams]
  exact List.take_subset _ _

/-- **A function about which nothing is reported is well typed**, if at least the parameters that it
is checked with were visible when its captures were resolved. -/
theorem checkFunction_wellTyped {fs : List (String × Signature)} (hfs : Typed.Functions.Proper fs)
    {f : Source.Function} (hw : Source.Stmt.WholeBlock f.body) {visible : List String}
    (hvisible : (checkedParams (signatureOf fs f) f).map Typed.Param.name ⊆ visible)
    (h : (checkFunction fs (f.resolveAmong visible)).findings = []) :
    (checkFunction fs (f.resolveAmong visible)).value.WellTyped fs := by
  have hsig : Ty.allProper (signatureOf fs f).params = true ∧
      Ty.allSimple (signatureOf fs f).results = true := by
    unfold signatureOf
    cases hl : fs.lookup f.name with
    | none => exact ⟨rfl, rfl⟩
    | some sig => exact hfs.lookup hl
  have hparams : Ty.allProper ((checkedParams (signatureOf fs f) f).map Typed.Param.ty) = true := by
    rw [ty_checkedParams, Ty.allProper_iff]
    exact fun t ht => (Ty.allProper_iff _).1 hsig.1 t (List.mem_of_mem_take ht)
  have henv : (Env.mk fs [] (signatureOf fs f).results).Proper :=
    ⟨hfs, (by intro p hp; cases hp), hsig.2⟩
  obtain ⟨hblock, hreturns⟩ := checkFunction_silent h
  have henv' := henv.declareParams hparams
  have hscope : ((Env.mk fs [] (signatureOf fs f).results).declareParams
      (declarations (checkedParams (signatureOf fs f) f))).scope
      = Typed.Scope.withParams (checkedParams (signatureOf fs f) f) [] := Env.scope_declareParams _ _
  -- the body may use the parameters, and captures were resolved with all of them in view
  have hsees : Sees ((Env.mk fs [] (signatureOf fs f).results).declareParams
      (declarations (checkedParams (signatureOf fs f) f))) visible
      ((checkedParams (signatureOf fs f) f).map Typed.Param.name)
      (Source.Stmt.freeBlock [] f.body) := by
    have hnames : ∀ x, x ∈ (Typed.Scope.withParams (checkedParams (signatureOf fs f) f) []).names →
        x ∈ (checkedParams (signatureOf fs f) f).map Typed.Param.name := by
      intro x hx
      rw [Typed.Scope.names_withParams] at hx
      simpa [Typed.Scope.names] using hx
    refine ⟨fun x hx => ?_, fun x _ hx => hnames x (by rwa [hscope] at hx)⟩
    rw [hscope] at hx
    exact hvisible (hnames x hx)
  have hbody := checkBlock_wellTyped henv' hw hsees hblock
  rw [Env.functions_declareParams, Env.results_declareParams, hscope] at hbody
  rw [checkFunction_value]
  refine ⟨hparams, hsig.2, hbody, fun hrs => ?_⟩
  by_contra hnot
  exact hreturns (by simpa [hrs] using hnot)

/-- Captures are no part of a signature. -/
theorem signatures_resolveAmong (p : Source.Program) (visible : Source.Function → List String) :
    signatures (p.resolveAmong visible) = signatures p := by
  simp [signatures, Source.Program.resolveAmong, Source.Function.resolveAmong, signature,
    Function.comp_def]

/-- The functions of a checked program, one by one. -/
theorem value_check (p : Source.Program) :
    (Typed.Program.check p).value.functions
      = p.functions.map fun f => (checkFunction (signatures p) f).value := by
  simp only [Typed.Program.check, value_mapM, Report.value_bind, Report.value_pure]

/-- What is found in a program, function by function. -/
theorem findings_check (p : Source.Program) :
    (Typed.Program.check p).findings
      = p.functions.flatMap fun f => (checkFunction (signatures p) f).findings := by
  simp only [Typed.Program.check, findings_mapM, Report.findings_bind, Report.findings_pure,
    List.append_nil]

theorem value_check_resolveAmong (p : Source.Program) (visible : Source.Function → List String) :
    (Typed.Program.check (p.resolveAmong visible)).value.functions
      = p.functions.map fun f => (checkFunction (signatures p) (f.resolveAmong (visible f))).value := by
  rw [value_check, signatures_resolveAmong, Source.Program.resolveAmong, List.map_map]
  rfl

theorem value_check_resolve (p : Source.Program) :
    (Typed.Program.check p.resolve).value.functions
      = p.functions.map fun f => (checkFunction (signatures p) f.resolve).value := by
  rw [Source.Program.resolve_eq_resolveAmong, value_check_resolveAmong,
    funext Source.Function.resolve_eq_resolveAmong]

/-- **A program about which nothing is reported is well typed**, if at least the parameters that its
functions are checked with were visible when captures were resolved. -/
theorem checkProgram_wellTyped_among {p : Source.Program} (hw : p.Whole)
    {visible : Source.Function → List String}
    (hvisible : ∀ f ∈ p.functions,
      (checkedParams (signatureOf (signatures p) f) f).map Typed.Param.name ⊆ visible f)
    (h : (Typed.Program.check (p.resolveAmong visible)).findings = []) :
    (Typed.Program.check (p.resolveAmong visible)).value.WellTyped (signatures p) := by
  have hvalue := value_check_resolveAmong p visible
  have hsilent : ∀ f ∈ p.functions,
      (checkFunction (signatures p) (f.resolveAmong (visible f))).findings = [] := by
    rw [findings_check, signatures_resolveAmong] at h
    simpa only [Source.Program.resolveAmong, List.flatMap_map, List.flatMap_eq_nil_iff] using h
  refine ⟨functions_proper p, fun name => ?_, ?_⟩
  · -- the last definition of a name is checked with its own signature, so all its parameters stay
    have hlast : ∀ f, (p.functions.reverse.find? fun f => name == f.name) = some f →
        (signatures p).lookup f.name = some (signature f) := by
      intro f hf
      have hname : name = f.name := by simpa using List.find?_some hf
      rw [← hname, signatures, lookup_functions, hf]
      rfl
    have hsig : ∀ f, (p.functions.reverse.find? fun f => name == f.name) = some f →
        (⟨(checkedParams (signatureOf (signatures p) f) f).map Typed.Param.ty,
          (signatureOf (signatures p) f).results⟩ : Signature) = signature f := by
      intro f hf
      have hown : signatureOf (signatures p) f = signature f := by
        simp only [signatureOf, hlast f hf, Option.getD_some]
      rw [hown, ty_checkedParams]
      simp [signature]
    rw [Typed.Program.functionTypes, hvalue, List.map_map]
    simp only [Function.comp_def, checkFunction_value]
    have htable := lookup_functions (fun f => (⟨(checkedParams (signatureOf (signatures p) f)
      f).map Typed.Param.ty, (signatureOf (signatures p) f).results⟩ : Signature)) p.functions name
    refine Eq.trans ?_ htable.symm
    rw [show (signatures p).lookup name
      = (p.functions.reverse.find? fun f => name == f.name).map signature from lookup_functions _ _ _]
    cases hf : p.functions.reverse.find? fun f => name == f.name with
    | none => rfl
    | some f => rw [Option.map_some, Option.map_some, hsig f hf]
  · rw [hvalue]
    intro g hg
    obtain ⟨f, hf, rfl⟩ := List.mem_map.1 hg
    exact checkFunction_wellTyped (functions_proper p) (hw f hf) (hvisible f hf) (hsilent f hf)

/-- **A program about which nothing is reported is well typed.** -/
theorem checkProgram_wellTyped {p : Source.Program} (hw : p.Whole)
    (h : (Typed.Program.check p.resolve).findings = []) :
    (Typed.Program.check p.resolve).value.WellTyped (signatures p) := by
  rw [Source.Program.resolve_eq_resolveAmong] at h ⊢
  exact checkProgram_wellTyped_among hw (fun f _ => name_checkedParams_subset _ f) h

end Rivulet.Check
