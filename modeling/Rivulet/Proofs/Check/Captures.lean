import Rivulet.Proofs.Check.Soundness

set_option autoImplicit false

/-! # When captures are in scope

Whether the captures of a checked tree are in scope can be read off the written program. The analysis
of captures sees all parameters of a function, the checker only those that have a counterpart in the
signature of the name. So a capture is out of scope exactly if it is a parameter that was dropped:
if a closure uses a name that nothing between the function and the closure binds, and that is a
parameter, but none of those that were kept.

Nothing here depends on the types that the checker finds, or on whether it reports anything: the
rules hand their parts on as they are. -/

namespace Rivulet.Check

open Source (captures mem_captures_iff)

/-! ## Rules hand on their parts -/

section Rules

variable {env : Env} {span : Span} (names : List String)

theorem capturesIn_literal (v : Source.Literal) : (literal v span).CapturesIn names := by
  cases v <;> trivial

theorem capturesIn_name (x : String) : (name env x span).value.CapturesIn names := by
  unfold name
  split
  · trivial
  · trivial
  · split <;> trivial
  · trivial

theorem capturesIn_unary (op : UnaryOp) (e : Typed.Expr) :
    (unary op e span).value.CapturesIn names ↔ e.CapturesIn names := by
  obtain ⟨i, hi⟩ := unary_form span op e
  rw [hi]
  rfl

theorem capturesIn_binary (op : BinaryOp) (l r : Typed.Expr) :
    (binary op l r span).value.CapturesIn names ↔ l.CapturesIn names ∧ r.CapturesIn names := by
  obtain ⟨i, hi⟩ := binary_form span op l r
  rw [hi]
  rfl

theorem capturesIn_untypedEmpty (hint : Hint) :
    (untypedEmpty hint span).value.CapturesIn names := by
  obtain ⟨i, hi⟩ := untypedEmpty_form span hint
  rw [hi]
  trivial

theorem capturesIn_seq (first : Typed.Expr) (rest : List Typed.Expr) :
    (seq first rest span).value.CapturesIn names ↔
      first.CapturesIn names ∧ Typed.Expr.CapturesInList names rest := by
  obtain ⟨i, hi⟩ := seq_form span first rest
  rw [hi]
  rfl

theorem capturesIn_index (e p : Typed.Expr) :
    (index e p span).value.CapturesIn names ↔ e.CapturesIn names ∧ p.CapturesIn names := by
  obtain ⟨i, hi⟩ := index_form span e p
  rw [hi]
  rfl

theorem capturesIn_call (f : Typed.Expr) (sig : Option Signature) (as : List Typed.Expr) :
    (call f sig as span).value.CapturesIn names ↔
      f.CapturesIn names ∧ Typed.Expr.CapturesInList names as := by
  obtain ⟨i, hi⟩ := call_form span f sig as
  rw [hi]
  rfl

theorem capturesIn_lambda (ps : List Typed.Param) (v : Typed.Expr) (cs : List String) :
    (lambda ps v cs span).CapturesIn names ↔
      cs ⊆ names ∧ v.CapturesIn (ps.map Typed.Param.name ++ names) := by
  obtain ⟨rs, b, i, hi, hb⟩ := lambda_form span ps v cs
  rw [hi]
  rcases hb with rfl | rfl <;>
    simp [Typed.Expr.CapturesIn, Typed.Stmt.CapturesInBlock, Typed.Stmt.CapturesIn,
      Typed.Expr.CapturesInList]

end Rules

theorem name_openParams (hint : Hint) :
    ∀ (i : Nat) (ps : List Source.OpenParam),
      (openParams hint i ps).value.map Typed.Param.name = ps.map Source.OpenParam.name
  | _, [] => rfl
  | i, p :: ps => by
      unfold openParams
      split <;> simp [name_openParams hint (i + 1) ps]

/-- A checked statement declares the names that the written one does. -/
theorem declared_checkStmt {env : Env} {visible : List String} {c : Source.Stmt} {c' : Typed.Stmt}
    (h : (checkStmt env (c.resolve visible)).value.1 = some c') :
    c'.declared.map Prod.fst = c.declared := by
  cases c <;>
    simp only [Source.Stmt.resolve, checkStmt, Report.value_bind, Report.value_pure,
      Option.some.injEq, reduceCtorEq] at h <;>
    subst h <;> rfl

/-- A statement that could not be read declares nothing. -/
theorem declared_of_checkStmt_none {env : Env} {visible : List String} {c : Source.Stmt}
    (h : (checkStmt env (c.resolve visible)).value.1 = none) : c.declared = [] := by
  cases c with
  | error s => rfl
  | _ => simp [Source.Stmt.resolve, checkStmt] at h

/-! ## The walk -/

/-- The names around a tree: below a function whose parameters are `params`, of which `kept` are in
scope, and below declarations of the names `bound`. -/
structure Around (params kept bound visible names : List String) : Prop where
  visible : ∀ x, x ∈ visible ↔ x ∈ bound ∨ x ∈ params
  names : ∀ x, x ∈ names ↔ x ∈ bound ∨ x ∈ kept

theorem Around.below {params kept bound visible names : List String}
    (h : Around params kept bound visible names) (ys : List String) :
    Around params kept (ys ++ bound) (ys ++ visible) (ys ++ names) := by
  refine ⟨fun x => ?_, fun x => ?_⟩
  · rw [List.mem_append, List.mem_append, h.visible, or_assoc]
  · rw [List.mem_append, List.mem_append, h.names, or_assoc]

/-- The captures of a closure are in scope if no dropped parameter is free in it. -/
theorem Around.captures_subset {params kept bound visible names : List String}
    (h : Around params kept bound visible names) {free free' : List String}
    (hfree : ∀ x, x ∈ free' ↔ x ∈ free ∧ x ∉ bound) :
    captures visible free ⊆ names ↔ ∀ x ∈ free', x ∈ params → x ∈ kept := by
  constructor
  · intro hsub x hx hparam
    have hx' := (hfree x).1 hx
    have hcap : x ∈ captures visible free :=
      mem_captures_iff.2 ⟨hx'.1, (h.visible x).2 (Or.inr hparam)⟩
    exact ((h.names x).1 (hsub hcap)).resolve_left hx'.2
  · intro hkept x hx
    obtain ⟨hx, hvis⟩ := mem_captures_iff.1 hx
    rw [h.names]
    by_cases hb : x ∈ bound
    · exact Or.inl hb
    · have hparam := ((h.visible x).1 hvis).resolve_left hb
      exact Or.inr (hkept x ((hfree x).2 ⟨hx, hb⟩) hparam)

mutual

/-- **Captures of an expression are in scope exactly if its closures use no dropped parameter.** -/
theorem capturesIn_checkExpr {params kept : List String} :
    ∀ (e : Source.Expr) {env : Env} {hint : Hint} {bound visible names : List String},
      Around params kept bound visible names →
      ((checkExpr env hint (e.resolve visible)).value.CapturesIn names ↔
        ∀ x ∈ e.closureFree bound, x ∈ params → x ∈ kept)
  | .literal v s, env, hint, bound, visible, names, _ => by
      simp only [Source.Expr.resolve, checkExpr, Report.value_pure, capturesIn_literal,
        Source.Expr.closureFree, List.not_mem_nil, false_imp_iff, implies_true]
  | .name x s, env, hint, bound, visible, names, _ => by
      simp only [Source.Expr.resolve, checkExpr, capturesIn_name, Source.Expr.closureFree,
        List.not_mem_nil, false_imp_iff, implies_true]
  | .unary op e s, env, hint, bound, visible, names, h => by
      simp only [Source.Expr.resolve, checkExpr, Report.value_bind, capturesIn_unary,
        Source.Expr.closureFree]
      exact capturesIn_checkExpr e h
  | .binary op l r s, env, hint, bound, visible, names, h => by
      simp only [Source.Expr.resolve, checkExpr, Report.value_bind, capturesIn_binary,
        Source.Expr.closureFree, List.forall_mem_append]
      rw [capturesIn_checkExpr l h, capturesIn_checkExpr r h]
  | .seq [] s, env, hint, bound, visible, names, _ => by
      simp only [Source.Expr.resolve, Source.Expr.resolveList, checkExpr, capturesIn_untypedEmpty,
        Source.Expr.closureFree, Source.Expr.closureFreeList, List.not_mem_nil, false_imp_iff,
        implies_true]
  | .seq (e :: es) s, env, hint, bound, visible, names, h => by
      simp only [Source.Expr.resolve, Source.Expr.resolveList, checkExpr, Report.value_bind,
        capturesIn_seq, Source.Expr.closureFree, Source.Expr.closureFreeList,
        List.forall_mem_append]
      rw [capturesIn_checkExpr e h, capturesIn_checkExprs es h]
  | .emptySeq t s, env, hint, bound, visible, names, _ => by
      simp only [Source.Expr.resolve, checkExpr, Report.value_pure, Typed.Expr.CapturesIn,
        Typed.Expr.CapturesInList, Source.Expr.closureFree, List.not_mem_nil, false_imp_iff,
        implies_true]
  | .index e i s, env, hint, bound, visible, names, h => by
      simp only [Source.Expr.resolve, checkExpr, Report.value_bind, capturesIn_index,
        Source.Expr.closureFree, List.forall_mem_append]
      rw [capturesIn_checkExpr e h, capturesIn_checkExpr i h]
  | .call f as s, env, hint, bound, visible, names, h => by
      simp only [Source.Expr.resolve, checkExpr, Source.Expr.closureFree, List.forall_mem_append]
      cases hs : special? env (f.resolve visible) with
      | some b =>
          -- the callee is a name, so no closure stands in it
          have hf : f.closureFree bound = [] := by
            cases f <;> simp_all [special?, Source.Expr.resolve, Source.Expr.closureFree]
          simp only [Report.value_bind, specialCall, Report.value_pure, Typed.Expr.CapturesIn,
            true_and, hf, List.not_mem_nil, false_imp_iff, implies_true]
          exact capturesIn_checkExprs as h
      | none =>
          simp only [Report.value_bind, capturesIn_call]
          rw [capturesIn_checkExpr f h, capturesIn_checkExprs as h]
  | .lambda ps b cs s, env, hint, bound, visible, names, h => by
      simp only [Source.Expr.resolve, checkExpr, Report.value_bind, Report.value_pure,
        capturesIn_lambda, name_openParams, Source.Expr.closureFree]
      rw [capturesIn_checkExpr b (h.below _), h.captures_subset fun x =>
        Source.Expr.mem_free_append_iff _ bound b]
      -- what closures in the body use is used in the body
      refine and_iff_left_of_imp fun hall x hx => ?_
      exact hall x (Source.Expr.closureFree_subset _ b hx)
  | .block ps rs b cs s, env, hint, bound, visible, names, h => by
      rw [Source.Expr.resolve, checkExpr_block_form]
      simp only [closure, Typed.Expr.CapturesIn, name_params, Source.Expr.closureFree]
      rw [capturesIn_checkBlock b (h.below _), h.captures_subset fun x =>
        Source.Stmt.mem_freeBlock_append_iff _ bound b]
      refine and_iff_left_of_imp fun hall x hx => ?_
      exact hall x (Source.Stmt.closureFreeBlock_subset _ b hx)
  | .error s, env, hint, bound, visible, names, _ => by
      simp only [Source.Expr.resolve, checkExpr, Report.value_pure, Typed.Expr.poison,
        Typed.Expr.CapturesIn, Source.Expr.closureFree, List.not_mem_nil, false_imp_iff,
        implies_true]

theorem capturesIn_checkExprs {params kept : List String} :
    ∀ (es : List Source.Expr) {env : Env} {hints : Nat → Hint}
      {bound visible names : List String}, Around params kept bound visible names →
      (Typed.Expr.CapturesInList names
          (checkExprs env hints (Source.Expr.resolveList visible es)).value ↔
        ∀ x ∈ Source.Expr.closureFreeList bound es, x ∈ params → x ∈ kept)
  | [], env, hints, bound, visible, names, _ => by
      simp [Source.Expr.resolveList, checkExprs, Typed.Expr.CapturesInList,
        Source.Expr.closureFreeList]
  | e :: es, env, hints, bound, visible, names, h => by
      simp only [Source.Expr.resolveList, checkExprs, Report.value_bind, Report.value_pure,
        Typed.Expr.CapturesInList, Source.Expr.closureFreeList, List.forall_mem_append]
      rw [capturesIn_checkExpr e h, capturesIn_checkExprs es h]

theorem capturesIn_checkStmt {params kept : List String} :
    ∀ (c : Source.Stmt) {bound visible names : List String},
      Around params kept bound visible names → ∀ env : Env,
      ((∀ c' ∈ (checkStmt env (c.resolve visible)).value.1, c'.CapturesIn names) ↔
        ∀ x ∈ c.closureFree bound, x ∈ params → x ∈ kept)
  | .declare _ _ _ e _, bound, visible, names, h, env
  | .assign _ e _, bound, visible, names, h, env | .expr e _, bound, visible, names, h, env => by
      simp only [Source.Stmt.resolve, checkStmt, Report.value_bind, Report.value_pure,
        Option.mem_def, Option.some.injEq, forall_eq', Typed.Stmt.CapturesIn,
        Source.Stmt.closureFree]
      exact capturesIn_checkExpr e h
  | .ifThen c b _, bound, visible, names, h, env => by
      simp only [Source.Stmt.resolve, checkStmt, Report.value_bind, Report.value_pure,
        Option.mem_def, Option.some.injEq, forall_eq', Typed.Stmt.CapturesIn,
        Typed.Stmt.CapturesInBlock, and_true, Source.Stmt.closureFree, List.forall_mem_append]
      rw [capturesIn_checkExpr c h, capturesIn_checkBlock b h env]
  | .ifElse c b d _, bound, visible, names, h, env => by
      simp only [Source.Stmt.resolve, checkStmt, Report.value_bind, Report.value_pure,
        Option.mem_def, Option.some.injEq, forall_eq', Typed.Stmt.CapturesIn,
        Source.Stmt.closureFree, List.forall_mem_append]
      rw [capturesIn_checkExpr c h, capturesIn_checkBlock b h env, capturesIn_checkBlock d h env, and_assoc]
  | .while c b _, bound, visible, names, h, env => by
      simp only [Source.Stmt.resolve, checkStmt, Report.value_bind, Report.value_pure,
        Option.mem_def, Option.some.injEq, forall_eq', Typed.Stmt.CapturesIn,
        Source.Stmt.closureFree, List.forall_mem_append]
      rw [capturesIn_checkExpr c h, capturesIn_checkBlock b h env]
  | .return es _, bound, visible, names, h, env => by
      simp only [Source.Stmt.resolve, checkStmt, Report.value_bind, Report.value_pure,
        Option.mem_def, Option.some.injEq, forall_eq', Typed.Stmt.CapturesIn,
        Source.Stmt.closureFree]
      exact capturesIn_checkExprs es h
  | .error _, bound, visible, names, _, env => by
      simp [Source.Stmt.resolve, checkStmt, Source.Stmt.closureFree]

/-- Captures of a block are in scope exactly if its closures use no dropped parameter. -/
theorem capturesIn_checkBlock {params kept : List String} :
    ∀ (ss : List Source.Stmt) {bound visible names : List String},
      Around params kept bound visible names → ∀ env : Env,
      (Typed.Stmt.CapturesInBlock names
          (checkBlock env (Source.Stmt.resolveBlock visible ss)).value ↔
        ∀ x ∈ Source.Stmt.closureFreeBlock bound ss, x ∈ params → x ∈ kept)
  | [], bound, visible, names, _, env => by
      simp [Source.Stmt.resolveBlock, checkBlock, Typed.Stmt.CapturesInBlock,
        Source.Stmt.closureFreeBlock]
  | c :: ss, bound, visible, names, h, env => by
      simp only [Source.Stmt.resolveBlock, checkBlock, Report.value_bind, Report.value_pure,
        Source.Stmt.closureFreeBlock, List.forall_mem_append]
      have hstmt := capturesIn_checkStmt c h env
      have hrest := capturesIn_checkBlock ss (h.below c.declared)
        (checkStmt env (c.resolve visible)).value.2
      rw [← hstmt, ← hrest]
      cases hval : (checkStmt env (c.resolve visible)).value.1 with
      | some c' => simp [Typed.Stmt.CapturesInBlock, declared_checkStmt hval]
      | none => simp [declared_of_checkStmt_none hval]

end

/-! ## Programs -/

/-- A closure of the function uses a parameter that the checker does not bring into scope. Its
signature is the one that its name has in the program. -/
def LosesCapture (fs : List (String × Signature)) (f : Source.Function) : Prop :=
  ∃ x ∈ Source.Stmt.closureFreeBlock [] f.body, x ∈ f.params.map Source.Param.name ∧
    x ∉ (f.params.map Source.Param.name).take (signatureOf fs f).params.length

/-- Captures of a checked function are in scope exactly if its closures use none of the names that were
visible around its body and are no parameters it is checked with. -/
theorem capturesIn_checkFunction_among (fs : List (String × Signature)) (f : Source.Function)
    (visible : List String) :
    (checkFunction fs (f.resolveAmong visible)).value.CapturesIn ↔
      ∀ x ∈ Source.Stmt.closureFreeBlock [] f.body, x ∈ visible →
        x ∈ (checkedParams (signatureOf fs f) f).map Typed.Param.name := by
  have haround : Around visible ((checkedParams (signatureOf fs f) f).map Typed.Param.name) []
      visible ((checkedParams (signatureOf fs f) f).map Typed.Param.name) :=
    ⟨fun x => by simp, fun x => by simp⟩
  rw [checkFunction_value]
  exact capturesIn_checkBlock f.body haround ((Env.mk fs []
    (signatureOf fs f).results).declareParams (declarations (checkedParams (signatureOf fs f) f)))

/-- **Captures of a checked function are in scope unless it loses one.** -/
theorem capturesIn_checkFunction (fs : List (String × Signature)) (f : Source.Function) :
    (checkFunction fs f.resolve).value.CapturesIn ↔ ¬ LosesCapture fs f := by
  rw [Source.Function.resolve_eq_resolveAmong]
  refine (capturesIn_checkFunction_among fs f (f.params.map Source.Param.name)).trans ?_
  rw [name_checkedParams, LosesCapture]
  push Not
  rfl

end Rivulet.Check
