import Rivulet.Proofs.Check.FaithfulRules
import Rivulet.Source.Parser

set_option autoImplicit false

/-! # Result lists survive their encoding

A closure whose body is an expression reads its results off the type of that expression. If the
expression is a call, that type was made from the results of the callee, so the closure has the results
of the callee only if the encoding lost nothing on the way. It never does in a program about which the
checker reports nothing: every type in the checked tree is faithful (`Typed.Program.results_survive`).

Text that could not be parsed leaves a placeholder in the tree, and the checker has nothing to report
about that. The placeholder has type `poison`, and so has a call with a placeholder as an argument, which
passes on no results. Without placeholders no poison occurs in an accepted program.

The walk needs no resolved names: the checker never reads a list of captures. -/

namespace Rivulet.Check

variable {rejected : Prop}

/-! ## The walk

The placeholder of text that could not be parsed is the one place where poison comes from nothing. So
either something was rejected, or there is no placeholder in the tree. -/

mutual

/-- **An expression about which nothing is reported is faithful.** -/
theorem checkExpr_faithful {env : Env} {hint : Hint} (henv : env.Faithful rejected)
    (hh : hint.Faithful rejected) :
    ∀ {e : Source.Expr}, rejected ∨ e.Whole → (checkExpr env hint e).findings = [] →
      (checkExpr env hint e).value.Faithful rejected
  | .literal v s, _, _ => literal_faithful v
  | .name x s, _, h => name_faithful henv h
  | .unary op e s, hw, h => by
      simp only [checkExpr, Report.findings_bind, List.append_eq_nil_iff] at h
      have he := checkExpr_faithful (e := e) henv Hint.faithful_none hw h.1
      exact unary_faithful he h.2
  | .binary op l r s, hw, h => by
      simp only [checkExpr, Report.findings_bind, List.append_eq_nil_iff] at h
      obtain ⟨hlf, hrf, hbf⟩ := h
      have hl := checkExpr_faithful henv Hint.faithful_none (hw.imp_right And.left) hlf
      have hr : (checkExpr env
          (if op = .map then .mapOver (checkExpr env .none l).value.ty else .none)
          r).value.Faithful rejected := by
        -- the hint is of account for a map only, and there the left operand is a sequence
        rcases checkExpr_right_cases env op (checkExpr env .none l).value.ty r with heq | ⟨rfl, hne⟩
        · rw [heq] at hrf ⊢
          exact checkExpr_faithful henv Hint.faithful_none (hw.imp_right And.right) hrf
        · rw [if_pos rfl] at hrf hbf ⊢
          have hhint := Hint.faithful_mapOver hl.ty (rejected_of_binary_map hl.ty hne hbf)
          exact checkExpr_faithful henv hhint (hw.imp_right And.right) hrf
      exact binary_faithful hl hr hbf
  | .seq [] s, _, h => untypedEmpty_faithful hh h
  | .seq (e :: es) s, hw, h => by
      simp only [checkExpr, Report.findings_bind, List.append_eq_nil_iff] at h
      obtain ⟨hef, hesf, hsf⟩ := h
      have he := checkExpr_faithful henv hh.element (hw.imp_right And.left) hef
      have hes := checkExprs_faithful henv (fun _ => hh.element) (hw.imp_right And.right) hesf
      exact seq_faithful (List.forall_mem_cons.2 ⟨he, hes⟩) hsf
  | .emptySeq t s, _, _ => .leaf rfl rfl trivial (Ty.faithful_seq.2 (faithful_typeOf t))
  | .index e i s, hw, h => by
      simp only [checkExpr, Report.findings_bind, List.append_eq_nil_iff] at h
      have he := checkExpr_faithful henv Hint.faithful_none (hw.imp_right And.left) h.1
      have hi := checkExpr_faithful henv Hint.faithful_none (hw.imp_right And.right) h.2.1
      exact index_faithful he hi h.2.2
  | .call f as s, hw, h => by
      simp only [checkExpr] at h ⊢
      cases hs : special? env f with
      | some b =>
          simp only [hs, Report.findings_bind, List.append_eq_nil_iff] at h
          have has := checkExprs_faithful henv (fun _ => Hint.faithful_none)
            (hw.imp_right And.right) h.1
          exact specialCall_faithful has h.2
      | none =>
          simp only [hs, Report.findings_bind, List.append_eq_nil_iff] at h
          obtain ⟨hff, hsf, hasf, hcf⟩ := h
          have hf := checkExpr_faithful henv Hint.faithful_none (hw.imp_right And.left) hff
          have hparams : ∀ i : Nat, (Hint.ofOption ((((signature?
              (checkExpr env .none f).value).value.map Signature.params).getD [])[i]?)).Faithful
              rejected := by
            refine fun i => Hint.faithful_ofOption fun t ht => ?_
            rcases signature?_cases hsf with ⟨-, hnone⟩ | ⟨ps, rs, hty, hsome⟩
            · simp [hnone] at ht
            · rw [hsome] at ht
              exact (Ty.faithful_func.1 (hty ▸ hf.ty)).1 t (List.mem_of_getElem? ht)
          have has := checkExprs_faithful henv hparams (hw.imp_right And.right) hasf
          exact call_faithful hf has hsf hcf
  | .lambda ps b cs s, hw, h => by
      simp only [checkExpr, Report.findings_bind, List.append_eq_nil_iff] at h
      have hps := openParams_faithful hh h.1
      have hb := checkExpr_faithful (e := b) (henv.declareParams hps) Hint.faithful_none hw h.2.1
      exact lambda_faithful hps hb
  | .block ps rs b cs s, hw, h => by
      simp only [checkExpr, Report.findings_bind, List.append_eq_nil_iff] at h
      rw [checkExpr_block_form]
      have hrs : ∀ r ∈ typesOf rs, r.Faithful rejected ∧ r.isSimple = true :=
        Ty.faithful_of_allSimple (allSimple_typesOf rs)
      have hparams := henv.declareParams (faithful_params ps)
      have hinner : Env.Faithful rejected { env.declareParams (declarations (params ps)) with
          results := typesOf rs } := ⟨hparams.functions, hparams.locals, fun r hr => (hrs r hr).1⟩
      have hb := checkBlock_faithful hinner hw h.1
      exact closure_faithful (faithful_params ps) hrs hb
  | .error s, hw, _ => .leaf rfl rfl trivial (Ty.faithful_poison.2 (hw.resolve_right fun h => h))

theorem checkExprs_faithful {env : Env} {hints : Nat → Hint} (henv : env.Faithful rejected)
    (hh : ∀ i, (hints i).Faithful rejected) :
    ∀ {es : List Source.Expr}, rejected ∨ Source.Expr.WholeList es →
      (checkExprs env hints es).findings = [] →
      ∀ e ∈ (checkExprs env hints es).value, e.Faithful rejected
  | [], _, _ => by simp [checkExprs]
  | e :: es, hw, h => by
      simp only [checkExprs, Report.findings_bind, List.append_eq_nil_iff] at h
      have he := checkExpr_faithful henv (hh 0) (hw.imp_right And.left) h.1
      have hes := checkExprs_faithful henv (fun i => hh (i + 1)) (hw.imp_right And.right) h.2.1
      exact List.forall_mem_cons.2 ⟨he, hes⟩

/-- A statement about which nothing is reported is faithful, and so is what is known behind it. -/
theorem checkStmt_faithful {env : Env} (henv : env.Faithful rejected) :
    ∀ {s : Source.Stmt}, rejected ∨ s.Whole → (checkStmt env s).findings = [] →
      (∀ s' ∈ (checkStmt env s).value.1, s'.Faithful rejected) ∧
        (checkStmt env s).value.2.Faithful rejected
  | .declare c x t e s, hw, h => by
      simp only [checkStmt, Report.findings_bind, List.append_eq_nil_iff] at h
      have hhint : (Hint.ofOption (t.map typeOf)).Faithful rejected := by
        refine Hint.faithful_ofOption fun u hu => ?_
        obtain ⟨w, -, rfl⟩ := Option.map_eq_some_iff.1 hu
        exact faithful_typeOf w
      have he := checkExpr_faithful henv hhint hw h.1
      have hty : (declaration x (t.map typeOf)
          (checkExpr env (.ofOption (t.map typeOf)) e).value).value.Faithful rejected := by
        cases t with
        | none => exact he.ty
        | some w => exact faithful_typeOf w
      exact ⟨.some (.declare hty he), henv.declare x hty⟩
  | .assign x e s, hw, h => by
      simp only [checkStmt, Report.findings_bind, List.append_eq_nil_iff] at h
      have hhint : (Hint.ofOption ((env.local? x).map Local.ty)).Faithful rejected := by
        refine Hint.faithful_ofOption fun u hu => ?_
        obtain ⟨l, hl, rfl⟩ := Option.map_eq_some_iff.1 hu
        exact henv.local? hl
      have he := checkExpr_faithful henv hhint hw h.1
      exact ⟨.some (.plain rfl rfl he), henv⟩
  | .ifThen c b s, hw, h => by
      simp only [checkStmt, Report.findings_bind, List.append_eq_nil_iff] at h
      have hc := checkExpr_faithful henv Hint.faithful_none (hw.imp_right And.left) h.1
      have hb := Typed.Stmt.faithful_nodesBlock
        (checkBlock_faithful henv (hw.imp_right And.right) h.2.2.1)
      have hparts := List.forall_mem_append.2 ⟨hc, hb⟩
      have hnone : ∀ n ∈ Typed.Stmt.nodesBlock [], n.Faithful rejected := by
        simp [Typed.Stmt.nodesBlock]
      exact ⟨.some (.plain rfl rfl (List.forall_mem_append.2 ⟨hparts, hnone⟩)), henv⟩
  | .ifElse c b d s, hw, h => by
      simp only [checkStmt, Report.findings_bind, List.append_eq_nil_iff] at h
      have hc := checkExpr_faithful henv Hint.faithful_none (hw.imp_right And.left) h.1
      have hb := Typed.Stmt.faithful_nodesBlock
        (checkBlock_faithful henv (hw.imp_right fun hw => hw.2.1) h.2.2.1)
      have hd := Typed.Stmt.faithful_nodesBlock
        (checkBlock_faithful henv (hw.imp_right fun hw => hw.2.2) h.2.2.2.1)
      have hparts := List.forall_mem_append.2 ⟨hc, hb⟩
      exact ⟨.some (.plain rfl rfl (List.forall_mem_append.2 ⟨hparts, hd⟩)), henv⟩
  | .while c b s, hw, h => by
      simp only [checkStmt, Report.findings_bind, List.append_eq_nil_iff] at h
      have hc := checkExpr_faithful henv Hint.faithful_none (hw.imp_right And.left) h.1
      have hb := Typed.Stmt.faithful_nodesBlock
        (checkBlock_faithful henv (hw.imp_right And.right) h.2.2.1)
      exact ⟨.some (.plain rfl rfl (List.forall_mem_append.2 ⟨hc, hb⟩)), henv⟩
  | .return es s, hw, h => by
      simp only [checkStmt, Report.findings_bind, List.append_eq_nil_iff] at h
      have hhints : ∀ i : Nat, (Hint.ofOption
          (if es.length = env.results.length then env.results else [])[i]?).Faithful rejected := by
        refine fun i => Hint.faithful_ofOption fun t ht => ?_
        have hmem := List.mem_of_getElem? ht
        split at hmem
        · exact henv.results t hmem
        · cases hmem
      have hes := Typed.Expr.faithful_nodesList (checkExprs_faithful henv hhints hw h.1)
      exact ⟨.some (.plain rfl rfl hes), henv⟩
  | .expr e s, hw, h => by
      simp only [checkStmt, Report.findings_bind, List.append_eq_nil_iff] at h
      have he := checkExpr_faithful henv Hint.faithful_none hw h.1
      exact ⟨.some (.plain rfl rfl he), henv⟩
  | .error s, _, _ => ⟨by simp [checkStmt], henv⟩

/-- **A block about which nothing is reported is faithful.** -/
theorem checkBlock_faithful {env : Env} (henv : env.Faithful rejected) :
    ∀ {ss : List Source.Stmt}, rejected ∨ Source.Stmt.WholeBlock ss →
      (checkBlock env ss).findings = [] → ∀ s ∈ (checkBlock env ss).value, s.Faithful rejected
  | [], _, _ => by simp [checkBlock]
  | s :: ss, hw, h => by
      simp only [checkBlock, Report.findings_bind, List.append_eq_nil_iff] at h
      obtain ⟨hs, henv'⟩ := checkStmt_faithful henv (hw.imp_right And.left) h.1
      have hss := checkBlock_faithful henv' (hw.imp_right And.right) h.2.1
      simp only [checkBlock, Report.value_bind, Report.value_pure]
      refine List.forall_mem_append.2 ⟨fun s' hs' => ?_, hss⟩
      exact hs s' (Option.mem_toList.1 hs')

end

/-! ## Programs -/

theorem faithful_signatures (p : Source.Program) :
    ∀ q ∈ signatures p, (Ty.func q.2.params q.2.results).Faithful rejected := by
  intro q hq
  have hproper := functions_proper p q hq
  exact Ty.faithful_func.2
    ⟨Ty.faithful_of_allProper hproper.1, Ty.faithful_of_allSimple hproper.2⟩

/-- **A function about which nothing is reported is faithful.** -/
theorem checkFunction_faithful {fs : List (String × Signature)}
    (hfs : ∀ q ∈ fs, (Ty.func q.2.params q.2.results).Faithful rejected) {f : Source.Function}
    (hw : rejected ∨ Source.Stmt.WholeBlock f.body) (h : (checkFunction fs f).findings = []) :
    (checkFunction fs f).value.ty.Faithful rejected ∧
      ∀ s ∈ (checkFunction fs f).value.body, s.Faithful rejected := by
  have hsig : (Ty.func (signatureOf fs f).params (signatureOf fs f).results).Faithful rejected := by
    unfold signatureOf
    cases hl : fs.lookup f.name with
    | none => exact Ty.faithful_func.2 ⟨by simp, by simp⟩
    | some sig =>
        obtain ⟨l₁, l₂, heq, -⟩ := List.lookup_eq_some_iff.1 hl
        exact hfs (f.name, sig) (by rw [heq]; simp)
  obtain ⟨hparams, hresults⟩ := Ty.faithful_func.1 hsig
  have hchecked : ∀ t ∈ (checkedParams (signatureOf fs f) f).map Typed.Param.ty,
      t.Faithful rejected := by
    rw [ty_checkedParams]
    exact fun t ht => hparams t (List.mem_of_mem_take ht)
  have henv : (Env.mk fs [] (signatureOf fs f).results).Faithful rejected :=
    ⟨hfs, by simp, fun t ht => (hresults t ht).1⟩
  have hbody := checkBlock_faithful
    (henv.declareParams fun p hp => hchecked p.ty (List.mem_map_of_mem hp)) hw
    (checkFunction_silent h).1
  rw [checkFunction_value]
  exact ⟨Ty.faithful_func.2 ⟨hchecked, hresults⟩, hbody⟩

/-- **A program about which nothing is reported is faithful.** -/
theorem check_faithful {p : Source.Program} (hw : rejected ∨ p.Whole)
    (h : (Typed.Program.check p).findings = []) :
    (∀ t ∈ (Typed.Program.check p).value.types, t.Faithful rejected) ∧
      ∀ n ∈ (Typed.Program.check p).value.nodes, n.Faithful rejected := by
  have hfunctions : ∀ g ∈ (Typed.Program.check p).value.functions, g.ty.Faithful rejected ∧
      ∀ s ∈ g.body, s.Faithful rejected := by
    simp only [Typed.Program.check, findings_mapM, Report.findings_bind, Report.findings_pure,
      List.append_nil, List.flatMap_eq_nil_iff] at h
    simp only [Typed.Program.check, value_mapM, Report.value_bind, Report.value_pure]
    intro g hg
    obtain ⟨f, hf, rfl⟩ := List.mem_map.1 hg
    exact checkFunction_faithful (faithful_signatures p) (hw.imp_right fun hw => hw f hf) (h f hf)
  have hnodes : ∀ n ∈ (Typed.Program.check p).value.nodes, n.Faithful rejected := by
    intro n hn
    obtain ⟨g, hg, hn⟩ := List.mem_flatMap.1 hn
    exact Typed.Stmt.faithful_nodesBlock (hfunctions g hg).2 n hn
  refine ⟨List.forall_mem_append.2 ⟨fun t ht => ?_, fun t ht => ?_⟩, hnodes⟩
  · obtain ⟨g, hg, rfl⟩ := List.mem_map.1 ht
    exact (hfunctions g hg).1
  · obtain ⟨n, hn, ht⟩ := List.mem_flatMap.1 ht
    exact (hnodes n hn).types t ht

end Rivulet.Check

namespace Rivulet.Typed

/-! ## Forwarding closures -/

/-- The body of the closure `c` is an expression, and that is a call of `g` without rejected
arguments. -/
def Expr.HandsOn (c g : Expr) : Prop :=
  ∃ ps as i cs s, c = Check.lambda ps (.call g as i) cs s ∧ ∀ a ∈ as, a.ty ≠ .poison

/-- A closure of the program calls `g`, directly or through other closures of the program: the callee of
each closure has the type of the next one. -/
inductive Program.Forwards (p : Program) : Expr → Expr → Prop where
  | direct {c g : Expr} : .expr c ∈ p.nodes → c.HandsOn g → p.Forwards c g
  | through {c h d g : Expr} : .expr c ∈ p.nodes → c.HandsOn h → h.ty = d.ty → p.Forwards d g →
      p.Forwards c g

/-- A closure with these results, as its type says. -/
def Expr.Gives (c : Expr) (rs : List Ty) : Prop :=
  ∃ ps b cs i, c = .closure ps rs b cs i ∧ i.ty = .func (ps.map Param.ty) rs

theorem gives_lambda (ps : List Param) (v : Expr) (cs : List String) (s : Span) :
    (Check.lambda ps v cs s).Gives v.ty.toResults := by
  unfold Check.lambda
  split
  · rename_i hunit
    rw [hunit]
    exact ⟨_, _, _, _, rfl, rfl⟩
  · exact ⟨_, _, _, _, rfl, rfl⟩

theorem mem_nodes_lambda (ps : List Param) (v : Expr) (cs : List String) (s : Span) :
    .expr v ∈ (Check.lambda ps v cs s).nodes := by
  unfold Check.lambda
  split <;> simp [Check.closure, Expr.nodes, Stmt.nodesBlock, Stmt.nodes, Expr.nodesList,
    v.mem_nodes_self]

/-- **One closure hands on the results of its callee.** -/
theorem Program.gives_of_handsOn {p : Program} {rejected : Prop}
    (hp : ∀ n ∈ p.nodes, n.Faithful rejected) {c g : Expr} (hc : .expr c ∈ p.nodes)
    (h : c.HandsOn g) (hg : g.ty ≠ .poison) :
    ∃ qs rs, g.ty = .func qs rs ∧ c.Gives rs := by
  obtain ⟨ps, as, i, cs, s, rfl, has⟩ := h
  have hcall : .expr (.call g as i) ∈ p.nodes := p.nodes_closed _ hc (mem_nodes_lambda ps _ cs s)
  have hcallee : .expr g ∈ p.nodes := p.nodes_closed _ hcall (g.callee_mem_nodes as i)
  obtain ⟨qs, rs, hty, hi⟩ := (hp _ hcall).call has hg
  have hsimple : ∀ r ∈ rs, r.isSimple = true := by
    have hfaithful := (hp _ hcallee).types _ g.ty_mem_types
    rw [hty] at hfaithful
    exact fun r hr => ((Ty.faithful_func.1 hfaithful).2 r hr).2
  have hgives := gives_lambda ps (.call g as i) cs s
  rw [show (Expr.call g as i).ty = .ofResults rs from hi, Ty.toResults_ofResults hsimple] at hgives
  exact ⟨qs, rs, hty, hgives⟩

/-- **So does a chain of closures.** -/
theorem Program.gives_of_forwards {p : Program} {rejected : Prop}
    (hp : ∀ n ∈ p.nodes, n.Faithful rejected) {c g : Expr} (h : p.Forwards c g)
    (hg : g.ty ≠ .poison) : ∃ qs rs, g.ty = .func qs rs ∧ c.Gives rs := by
  induction h with
  | direct hc hands => exact p.gives_of_handsOn hp hc hands hg
  | @through c h d g hc hands hty _ ih =>
      obtain ⟨qs, rs, hgty, ps, b, cs, i, rfl, hi⟩ := ih hg
      -- the callee has the type of the closure behind it, which has the results of `g`
      have hcallee : h.ty = .func (ps.map Param.ty) rs := hty.trans hi
      have hne : h.ty ≠ .poison := by simp [hcallee]
      obtain ⟨qs', rs', hty', hgives⟩ := p.gives_of_handsOn hp hc hands hne
      rw [hcallee, Ty.func.injEq] at hty'
      rw [← hty'.2] at hgives
      exact ⟨qs, rs, hgty, hgives⟩

/-- Where nothing is poison, every closure whose body is a call hands on its results. -/
theorem Program.handsOn_of_clean {p : Program} (hp : ∀ t ∈ p.types, .poison ∉ t.parts)
    {ps : List Param} {g : Expr} {as : List Expr} {i : Info} {cs : List String} {s : Span}
    (hc : .expr (Check.lambda ps (.call g as i) cs s) ∈ p.nodes) :
    (Check.lambda ps (.call g as i) cs s).HandsOn g ∧ g.ty ≠ .poison := by
  have hcall : .expr (.call g as i) ∈ p.nodes := p.nodes_closed _ hc (mem_nodes_lambda ps _ cs s)
  have hclean : ∀ e : Expr, .expr e ∈ (Expr.call g as i).nodes → e.ty ≠ .poison := by
    intro e he heq
    have hparts := hp _ (Program.ty_mem_types (p.nodes_closed _ hcall he))
    rw [heq] at hparts
    exact hparts (Ty.mem_parts_self .poison)
  refine ⟨⟨ps, as, i, cs, s, rfl, fun a ha => ?_⟩, hclean g (g.callee_mem_nodes as i)⟩
  exact hclean a (Expr.arg_mem_nodes ha g i)

/-! ## The theorem -/

/-- **Result lists survive their encoding.** Take a program about which nothing is reported.

* In every type of the checked tree the results of functions are neither `unit` nor tuples, and tuples
  have at least two components. So a result list is read back as it was.
* A closure whose body is a call has the results of its callee, and so has a closure that calls that one,
  and so on. This is said of calls whose callee and arguments were not rejected.
* If all of the program could be parsed, nothing is poison, and no closure is left out. -/
theorem Program.results_survive (p : Source.Program) (h : (Program.check p).findings = []) :
    (∀ t ∈ (Program.check p).value.types, ∀ u ∈ t.parts,
      (∀ ps rs, u = .func ps rs →
        (∀ r ∈ rs, r ≠ .unit ∧ ∀ ts, r ≠ .tuple ts) ∧ (Ty.ofResults rs).toResults = rs) ∧
      (∀ ts, u = .tuple ts → 2 ≤ ts.length)) ∧
    (∀ c g, (Program.check p).value.Forwards c g → g.ty ≠ .poison →
      ∃ qs rs, g.ty = .func qs rs ∧ c.Gives rs) ∧
    (p.Whole → (∀ t ∈ (Program.check p).value.types, .poison ∉ t.parts) ∧
      ∀ ps g as i cs s, .expr (Check.lambda ps (.call g as i) cs s) ∈ (Program.check p).value.nodes →
        (Check.lambda ps (.call g as i) cs s).HandsOn g ∧ g.ty ≠ .poison) := by
  obtain ⟨htypes, hnodes⟩ := Check.check_faithful (Or.inl trivial) h
  refine ⟨fun t ht u hu => ⟨?_, ?_⟩, fun c g => Program.gives_of_forwards hnodes, ?_⟩
  · rintro ps rs rfl
    have hsimple : ∀ r ∈ rs, r.isSimple = true := htypes t ht _ hu
    refine ⟨fun r hr => ⟨?_, ?_⟩, Ty.toResults_ofResults hsimple⟩
    · rintro rfl
      exact absurd (hsimple _ hr) (by simp [Ty.isSimple])
    · rintro ts rfl
      exact absurd (hsimple _ hr) (by simp [Ty.isSimple])
  · rintro ts rfl
    have hadmitted : 2 ≤ ts.length ∧ ∀ t ∈ ts, t.isSimple = true := htypes t ht _ hu
    exact hadmitted.1
  · intro hwhole
    have hclean : ∀ t ∈ (Program.check p).value.types, .poison ∉ t.parts := by
      intro t ht hpoison
      exact (Check.check_faithful (Or.inr hwhole : False ∨ p.Whole) h).1 t ht .poison hpoison
    exact ⟨hclean, fun ps g as i cs s hc => Program.handsOn_of_clean hclean hc⟩

/-- A closure hands on the two results of a function, and another closure hands them on once more. -/
theorem Program.results_survive_pair :
    let s : Span := .nowhere
    let p : Source.Program := ⟨[
      ⟨"pair", [⟨"x", .named .int, s⟩], [.named .int, .named .string],
        [.return [.name "x" s, .literal (.str "a") s] s], s⟩,
      ⟨"main", [], [], [
        .declare false "f" none
          (.lambda [] (.call (.name "pair" s) [.literal (.int 1) s] s) [] s) s,
        .declare false "g" none (.lambda [] (.call (.name "f" s) [] s) ["f"] s) s], s⟩]⟩
    (Program.check p).findings = [] ∧ ∃ c, (Program.check p).value.Forwards c
      (.function "pair" ⟨.func [.int] [.int, .str], s⟩) ∧ c.Gives [.int, .str] := by
  intro s p
  have hsilent : (Program.check p).findings = [] := by decide +kernel
  let pair : Expr := .function "pair" ⟨.func [.int] [.int, .str], s⟩
  let inner : Expr :=
    Check.lambda [] (.call pair [.int 1 ⟨.int, s⟩] ⟨.tuple [.int, .str], s⟩) [] s
  let outer : Expr := Check.lambda []
    (.call (.local "f" ⟨.func [] [.int, .str], s⟩) [] ⟨.tuple [.int, .str], s⟩) ["f"] s
  have hinner : .expr inner ∈ (Program.check p).value.nodes :=
    List.mem_of_getElem? (i := 4) rfl
  have houter : .expr outer ∈ (Program.check p).value.nodes :=
    List.mem_of_getElem? (i := 10) rfl
  have hforwards : (Program.check p).value.Forwards outer pair := by
    refine .through houter ⟨_, _, _, _, _, rfl, by simp⟩ (d := inner) rfl ?_
    exact .direct hinner ⟨_, _, _, _, _, rfl, by simp [Expr.ty, Expr.info]⟩
  have hne : pair.ty ≠ .poison := by decide
  obtain ⟨qs, rs, hty, hgives⟩ := (Program.results_survive p hsilent).2.1 outer pair hforwards hne
  cases hty
  exact ⟨hsilent, outer, hforwards, hgives⟩

/-- The type of the callee and the results of a closure whose body is a call. -/
def Node.tailCall? : Node → Option (Ty × List Ty)
  | .expr (.closure _ rs [.return [.call g _ _] _] _ _) => some (g.ty, rs)
  | .expr (.closure _ rs [.expr (.call g _ _) _] _ _) => some (g.ty, rs)
  | _ => none

set_option maxRecDepth 100000 in
/-- The operand in parentheses cannot be parsed. The placeholder for it is an argument, so the call is
rejected without a word, and the closure does not get the result of the function it calls. -/
theorem Program.results_lost_at_placeholder :
    let p := (Source.Program.ofSource ("function g(x: int) -> int \x7b return x; \x7d "
      ++ "function f() \x7b var h := () -> g((+)); \x7d")).value
    (Program.check p).findings = [] ∧ (Program.check p).value.nodes.filterMap Node.tailCall?
      = [(.func [.int] [.int], [.poison])] := by
  decide +kernel

end Rivulet.Typed
