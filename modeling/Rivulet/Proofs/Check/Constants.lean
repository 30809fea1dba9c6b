import Rivulet.Proofs.Check.Soundness

set_option autoImplicit false

/-! # Assignments spare constants

The checker is the only stage that knows which names are constants. What it makes sure of is said
here of the typed tree: every assignment finds its name in scope, and the innermost declaration of
that name is not one of a constant (`Typed.Stmt.Spares`). The scope is a list of names with a mark on
those that are constants. A constant may be hidden by a variable of the same name and the other way
round, so it is the first entry of a name that counts. -/

namespace Rivulet.Typed

/-- The names in scope, the innermost first, each with whether it is a constant. -/
abbrev Marks := List (String × Bool)

/-- What a statement brings into scope for the statements after it. -/
def Stmt.marks : Stmt → Marks
  | .declare c x _ _ _ => [(x, c)]
  | _ => []

/-- A scope with parameters in it, which are no constants. -/
def Marks.withParams (ps : List Param) (sc : Marks) : Marks :=
  (ps.map fun p => (p.name, false)).reverse ++ sc

mutual

/-- No assignment in an expression is to a constant. -/
def Expr.Spares (sc : Marks) : Expr → Prop
  | .int _ _ | .bool _ _ | .str _ _ | .local _ _ | .function _ _ | .builtin _ _ | .error _ => True
  | .unary _ e _ => e.Spares sc
  | .binary _ l r _ => l.Spares sc ∧ r.Spares sc
  | .seq es _ => Expr.SparesList sc es
  | .index e p _ => e.Spares sc ∧ p.Spares sc
  | .call f as _ => f.Spares sc ∧ Expr.SparesList sc as
  | .closure ps _ b _ _ => Stmt.SparesBlock (sc.withParams ps) b
termination_by structural e => e

/-- No assignment in several expressions is to a constant. -/
def Expr.SparesList (sc : Marks) : List Expr → Prop
  | [] => True
  | e :: es => e.Spares sc ∧ Expr.SparesList sc es
termination_by structural es => es

/-- No assignment in a statement is to a constant. -/
def Stmt.Spares (sc : Marks) : Stmt → Prop
  | .declare _ _ _ e _ | .expr e _ => e.Spares sc
  | .assign x e _ => sc.lookup x = some false ∧ e.Spares sc
  | .if c t e _ => c.Spares sc ∧ Stmt.SparesBlock sc t ∧ Stmt.SparesBlock sc e
  | .while c b _ => c.Spares sc ∧ Stmt.SparesBlock sc b
  | .return es _ => Expr.SparesList sc es
termination_by structural s => s

/-- No assignment in a block is to a constant. -/
def Stmt.SparesBlock (sc : Marks) : List Stmt → Prop
  | [] => True
  | s :: ss => s.Spares sc ∧ Stmt.SparesBlock (s.marks ++ sc) ss
termination_by structural ss => ss

end

/-- No assignment in a function is to a constant. -/
def Function.SparesConstants (f : Function) : Prop :=
  Stmt.SparesBlock (Marks.withParams f.params []) f.body

end Rivulet.Typed

namespace Rivulet.Check

/-! ## Scopes of the checker -/

/-- The names that the checker has in scope, with marks on the constants. -/
def Env.marks (env : Env) : Typed.Marks := env.locals.map fun p => (p.1, p.2.isConst)

theorem Env.lookup_marks (env : Env) (x : String) :
    env.marks.lookup x = (env.local? x).map Local.isConst := by
  unfold Env.marks Env.local?
  induction env.locals with
  | nil => rfl
  | cons p locals ih =>
      rw [List.map_cons, List.lookup_cons, List.lookup_cons]
      split
      · rfl
      · exact ih

theorem Env.marks_declareParams (env : Env) (ps : List Typed.Param) :
    (env.declareParams (declarations ps)).marks = env.marks.withParams ps := by
  unfold Env.declareParams declarations Typed.Marks.withParams
  induction ps generalizing env with
  | nil => rfl
  | cons p ps ih =>
      rw [List.map_cons, List.foldl_cons, ih, List.map_cons, List.reverse_cons, List.append_assoc]
      rfl

/-- An assignment about which nothing is reported is to a name in scope that is no constant. -/
theorem lookup_of_assignment_silent {env : Env} {x : String} {value : Typed.Expr} {span : Span}
    (h : (assignment (env.local? x) x value span).findings = []) :
    env.marks.lookup x = some false := by
  rw [Env.lookup_marks]
  unfold assignment at h
  cases hl : env.local? x with
  | none => simp [hl, reject] at h
  | some l =>
      rw [hl] at h
      dsimp only at h
      split at h
      · simp [reject] at h
      · rename_i hconst
        rw [Option.map_some, Bool.eq_false_iff.2 hconst]

theorem spares_lambda {sc : Typed.Marks} {ps : List Typed.Param} {v : Typed.Expr}
    (h : v.Spares (sc.withParams ps)) (cs : List String) (span : Span) :
    (lambda ps v cs span).Spares sc := by
  obtain ⟨rs, b, i, hi, hb⟩ := lambda_form span ps v cs
  rw [hi]
  rcases hb with rfl | rfl
  · exact ⟨h, trivial⟩
  · exact ⟨⟨h, trivial⟩, trivial⟩

/-! ## The walk -/

mutual

/-- **An expression about which nothing is reported spares constants.** -/
theorem checkExpr_spares : ∀ (e : Source.Expr) {env : Env} {hint : Hint},
    (checkExpr env hint e).findings = [] → (checkExpr env hint e).value.Spares env.marks
  | .literal v s, env, hint, _ => by cases v <;> trivial
  | .name x s, env, hint, _ => by
      simp only [checkExpr, name]
      split
      · trivial
      · trivial
      · split <;> trivial
      · trivial
  | .unary op e s, env, hint, h => by
      simp only [checkExpr, Report.findings_bind, List.append_eq_nil_iff] at h
      obtain ⟨i, hi⟩ := unary_form s op (checkExpr env .none e).value
      rw [checkExpr, Report.value_bind, hi]
      exact checkExpr_spares e h.1
  | .binary op l r s, env, hint, h => by
      simp only [checkExpr, Report.findings_bind, List.append_eq_nil_iff] at h
      obtain ⟨i, hi⟩ := binary_form s op (checkExpr env .none l).value (checkExpr env
        (if op = .map then .mapOver (checkExpr env .none l).value.ty else .none) r).value
      rw [checkExpr, Report.value_bind, Report.value_bind, hi]
      exact ⟨checkExpr_spares l h.1, checkExpr_spares r h.2.1⟩
  | .seq [] s, env, hint, _ => by
      obtain ⟨i, hi⟩ := untypedEmpty_form s hint
      rw [checkExpr, hi]
      trivial
  | .seq (e :: es) s, env, hint, h => by
      simp only [checkExpr, Report.findings_bind, List.append_eq_nil_iff] at h
      obtain ⟨i, hi⟩ := seq_form s (checkExpr env
        (.ofOption (hint.expected?.bind Ty.element?)) e).value (checkExprs env
        (fun _ => .ofOption (hint.expected?.bind Ty.element?)) es).value
      rw [checkExpr, Report.value_bind, Report.value_bind, hi]
      exact ⟨checkExpr_spares e h.1, checkExprs_spares es h.2.1⟩
  | .emptySeq t s, env, hint, _ => trivial
  | .index e p s, env, hint, h => by
      simp only [checkExpr, Report.findings_bind, List.append_eq_nil_iff] at h
      obtain ⟨i, hi⟩ := index_form s (checkExpr env .none e).value (checkExpr env .none p).value
      rw [checkExpr, Report.value_bind, Report.value_bind, hi]
      exact ⟨checkExpr_spares e h.1, checkExpr_spares p h.2.1⟩
  | .call f as s, env, hint, h => by
      simp only [checkExpr] at h ⊢
      cases hs : special? env f with
      | some b =>
          simp only [hs, Report.findings_bind, List.append_eq_nil_iff] at h
          exact ⟨trivial, checkExprs_spares as h.1⟩
      | none =>
          simp only [hs, Report.findings_bind, List.append_eq_nil_iff] at h
          obtain ⟨i, hi⟩ := call_form s (checkExpr env .none f).value
            (signature? (checkExpr env .none f).value).value
            (checkExprs env (fun i => .ofOption (((signature? (checkExpr env .none f).value).value.map
              Signature.params).getD [])[i]?) as).value
          simp only [Report.value_bind, hi]
          exact ⟨checkExpr_spares f h.1, checkExprs_spares as h.2.2.1⟩
  | .lambda ps b cs s, env, hint, h => by
      simp only [checkExpr, Report.findings_bind, List.append_eq_nil_iff] at h
      have hb := checkExpr_spares b h.2.1
      rw [Env.marks_declareParams] at hb
      exact spares_lambda hb cs s
  | .block ps rs b cs s, env, hint, h => by
      simp only [checkExpr, Report.findings_bind, List.append_eq_nil_iff] at h
      have hb := checkBlock_spares b h.1
      rw [checkExpr_block_form]
      have hmarks : Env.marks { env.declareParams (declarations (params ps)) with
          results := typesOf rs } = env.marks.withParams (params ps) :=
        env.marks_declareParams (params ps)
      rw [hmarks] at hb
      exact hb
  | .error s, env, hint, _ => trivial

theorem checkExprs_spares : ∀ (es : List Source.Expr) {env : Env} {hints : Nat → Hint},
    (checkExprs env hints es).findings = [] →
      Typed.Expr.SparesList env.marks (checkExprs env hints es).value
  | [], env, hints, _ => trivial
  | e :: es, env, hints, h => by
      simp only [checkExprs, Report.findings_bind, List.append_eq_nil_iff] at h
      exact ⟨checkExpr_spares e h.1, checkExprs_spares es h.2.1⟩

/-- A statement about which nothing is reported spares constants, and the checker goes on with the
marks that it brings into scope. -/
theorem checkStmt_spares : ∀ (c : Source.Stmt) {env : Env}, (checkStmt env c).findings = [] →
    (∀ s ∈ (checkStmt env c).value.1, s.Spares env.marks)
      ∧ (checkStmt env c).value.2.marks
        = ((checkStmt env c).value.1.map Typed.Stmt.marks).getD [] ++ env.marks
  | .declare c x t e s, env, h => by
      simp only [checkStmt, Report.findings_bind, List.append_eq_nil_iff] at h
      have he := checkExpr_spares e h.1
      exact ⟨fun s hs => by cases hs; exact he, rfl⟩
  | .assign x e s, env, h => by
      simp only [checkStmt, Report.findings_bind, List.append_eq_nil_iff] at h
      have he := checkExpr_spares e h.1
      have hx := lookup_of_assignment_silent h.2.1
      exact ⟨fun s hs => by cases hs; exact ⟨hx, he⟩, rfl⟩
  | .ifThen c t s, env, h => by
      simp only [checkStmt, Report.findings_bind, List.append_eq_nil_iff] at h
      have hc := checkExpr_spares c h.1
      have ht := checkBlock_spares t h.2.2.1
      exact ⟨fun s hs => by cases hs; exact ⟨hc, ht, trivial⟩, rfl⟩
  | .ifElse c t e s, env, h => by
      simp only [checkStmt, Report.findings_bind, List.append_eq_nil_iff] at h
      have hc := checkExpr_spares c h.1
      have ht := checkBlock_spares t h.2.2.1
      have he := checkBlock_spares e h.2.2.2.1
      exact ⟨fun s hs => by cases hs; exact ⟨hc, ht, he⟩, rfl⟩
  | .while c b s, env, h => by
      simp only [checkStmt, Report.findings_bind, List.append_eq_nil_iff] at h
      have hc := checkExpr_spares c h.1
      have hb := checkBlock_spares b h.2.2.1
      exact ⟨fun s hs => by cases hs; exact ⟨hc, hb⟩, rfl⟩
  | .return es s, env, h => by
      simp only [checkStmt, Report.findings_bind, List.append_eq_nil_iff] at h
      have hes := checkExprs_spares es h.1
      exact ⟨fun s hs => by cases hs; exact hes, rfl⟩
  | .expr e s, env, h => by
      simp only [checkStmt, Report.findings_bind, List.append_eq_nil_iff] at h
      have he := checkExpr_spares e h.1
      exact ⟨fun s hs => by cases hs; exact he, rfl⟩
  | .error s, env, _ => by simp [checkStmt]

/-- A block about which nothing is reported spares constants. -/
theorem checkBlock_spares : ∀ (ss : List Source.Stmt) {env : Env},
    (checkBlock env ss).findings = [] →
      Typed.Stmt.SparesBlock env.marks (checkBlock env ss).value
  | [], env, _ => trivial
  | c :: ss, env, h => by
      simp only [checkBlock, Report.findings_bind, List.append_eq_nil_iff] at h
      obtain ⟨hc, hmarks⟩ := checkStmt_spares c h.1
      have hss := checkBlock_spares ss h.2.1
      rw [hmarks] at hss
      simp only [checkBlock, Report.value_bind, Report.value_pure]
      cases hval : (checkStmt env c).value.1 with
      | none =>
          rw [hval] at hss
          exact hss
      | some s =>
          rw [hval] at hc hss
          exact ⟨hc s rfl, hss⟩

end

/-! ## Programs -/

/-- **A program about which nothing is reported never assigns to a constant.** -/
theorem sparesConstants_of_check {p : Source.Program} (h : (Typed.Program.check p).findings = []) :
    ∀ f ∈ (Typed.Program.check p).value.functions, f.SparesConstants := by
  simp only [Typed.Program.check, findings_mapM, Report.findings_bind, Report.findings_pure,
    List.append_nil, List.flatMap_eq_nil_iff] at h
  simp only [Typed.Program.check, value_mapM, Report.value_bind, Report.value_pure]
  intro g hg
  obtain ⟨f, hf, rfl⟩ := List.mem_map.1 hg
  have hb := checkBlock_spares f.body (checkFunction_silent (h f hf)).1
  rw [Env.marks_declareParams] at hb
  rw [checkFunction_value]
  exact hb

end Rivulet.Check
