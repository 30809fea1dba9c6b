import Rivulet.Proofs.Check.Captures
import Rivulet.Proofs.Code.ModuleGeneration

set_option autoImplicit false

/-! # Code is made of whole trees only

The checker passes over what could not be parsed without a word, but the generator does not: a typed
tree with an error in it has no code. So a program of which code was made had no such expression in
it to begin with. This is what allows to speak about programs that were checked, whether or not they
were parsed without mistakes. -/

namespace Rivulet.Ir

open Check

/-- A step of the generator can succeed. -/
def Make.Succeeds {α : Type} (make : Make α) : Prop := ∃ ctx a ctx', Makes make ctx a ctx'

/-- Both parts of a sequence of steps that can succeed can. -/
theorem Make.Succeeds.bind_inv {α β : Type} {make : Make α} {next : α → Make β}
    (h : Make.Succeeds (make >>= next)) : Make.Succeeds make ∧ ∃ a, Make.Succeeds (next a) := by
  obtain ⟨ctx, b, ctx', hb⟩ := h
  obtain ⟨a, ctx₁, ha, hnext⟩ := hb.bind_inv
  exact ⟨⟨ctx, a, ctx₁, ha⟩, a, ctx₁, b, ctx', hnext⟩

/-! ## Parts of code that was made -/

section Parts

variable {scope : Scope} {i : Typed.Info}

theorem Make.succeeds_unary {op : UnaryOp} {e : Typed.Expr}
    (h : Make.Succeeds (Make.expr scope (.unary op e i))) : Make.Succeeds (Make.expr scope e) := by
  obtain ⟨-, t, ht⟩ := h.bind_inv
  exact ht.bind_inv.1

theorem Make.succeeds_binary {op : BinaryOp} {l r : Typed.Expr}
    (h : Make.Succeeds (Make.expr scope (.binary op l r i))) :
    Make.Succeeds (Make.expr scope l) ∧ Make.Succeeds (Make.expr scope r) := by
  obtain ⟨-, t, ht⟩ := h.bind_inv
  obtain ⟨hl, l', hl'⟩ := ht.bind_inv
  exact ⟨hl, hl'.bind_inv.1⟩

theorem Make.succeeds_seq {es : List Typed.Expr}
    (h : Make.Succeeds (Make.expr scope (.seq es i))) : Make.Succeeds (Make.exprs scope es) := by
  obtain ⟨-, t, ht⟩ := h.bind_inv
  exact ht.bind_inv.1

theorem Make.succeeds_cons {e : Typed.Expr} {es : List Typed.Expr}
    (h : Make.Succeeds (Make.exprs scope (e :: es))) :
    Make.Succeeds (Make.expr scope e) ∧ Make.Succeeds (Make.exprs scope es) := by
  obtain ⟨he, e', he'⟩ := h.bind_inv
  exact ⟨he, he'.bind_inv.1⟩

theorem Make.succeeds_index {e p : Typed.Expr}
    (h : Make.Succeeds (Make.expr scope (.index e p i))) :
    Make.Succeeds (Make.expr scope e) ∧ Make.Succeeds (Make.expr scope p) := by
  obtain ⟨-, t, ht⟩ := h.bind_inv
  obtain ⟨he, e', he'⟩ := ht.bind_inv
  exact ⟨he, he'.bind_inv.1⟩

theorem Make.succeeds_closure {ps : List Typed.Param} {rs : List Rivulet.Ty} {b : List Typed.Stmt}
    {cs : List String} (h : Make.Succeeds (Make.expr scope (.closure ps rs b cs i))) :
    ∃ scope', Make.Succeeds (Make.block scope' b) := by
  obtain ⟨-, t, ht⟩ := h.bind_inv
  obtain ⟨-, ys, hys⟩ := ht.bind_inv
  obtain ⟨-, ⟨xs, scope'⟩, hxs⟩ := hys.bind_inv
  obtain ⟨-, rs', hrs⟩ := hxs.bind_inv
  exact ⟨scope', hrs.bind_inv.1⟩

end Parts

/-- The body of a function of which code was made. -/
theorem Function.block_succeeds {f : Typed.Function} {g : Function}
    (h : Function.ofTyped f = .ok g) : ∃ scope, Make.Succeeds (Make.block scope f.body) := by
  unfold Function.ofTyped at h
  cases hrun : (Make.function f).run {} with
  | error e => rw [hrun] at h; cases h
  | ok r =>
      have hmake : Make.Succeeds (Make.function f) := ⟨{}, r.1, r.2, hrun⟩
      obtain ⟨-, ⟨xs, scope⟩, hxs⟩ := hmake.bind_inv
      obtain ⟨-, rs, hrs⟩ := hxs.bind_inv
      exact ⟨scope, hrs.bind_inv.1⟩

/-- Only a name is checked to be a builtin. -/
theorem name_of_checkExpr_builtin {env : Env} {hint : Hint} {e : Source.Expr} {b : Builtin}
    {j : Typed.Info} (h : (checkExpr env hint e).value = .builtin b j) : ∃ x s, e = .name x s := by
  cases e with
  | name x s => exact ⟨x, s, rfl⟩
  | literal v s => cases v <;> cases h
  | emptySeq t s => cases h
  | error s => cases h
  | unary op e s =>
      obtain ⟨i, hi⟩ := checkExpr_unary_form s env hint op e
      rw [hi] at h
      cases h
  | binary op l r s =>
      obtain ⟨hint', i, hi⟩ := checkExpr_binary_form s env hint op l r
      rw [hi] at h
      cases h
  | seq es s =>
      obtain ⟨hints, i, hi⟩ := checkExpr_seq_form s env hint es
      rw [hi] at h
      cases h
  | index e p s =>
      obtain ⟨i, hi⟩ := checkExpr_index_form s env hint e p
      rw [hi] at h
      cases h
  | call f as s =>
      obtain ⟨f', hints, i, hi, -⟩ :=
        checkExpr_call_form s env hint f as
      rw [hi] at h
      cases h
  | lambda ps b cs s =>
      obtain ⟨ps', env', rs, body, i, hi, -⟩ :=
        checkExpr_lambda_form s env hint ps b cs
      rw [hi] at h
      cases h
  | block ps rs b cs s =>
      rw [checkExpr_block_form] at h
      cases h

/-! ## The walk -/

mutual

/-- An expression of which code was made, once it was checked, is whole. -/
theorem whole_of_made :
    ∀ {e : Source.Expr} {env : Env} {hint : Hint} {scope : Scope},
      Make.Succeeds (Make.expr scope (checkExpr env hint e).value) → e.Whole
  | .literal _ _, _, _, _, _ | .name _ _, _, _, _, _ | .emptySeq _ _, _, _, _, _ => trivial
  | .unary op e s, env, hint, scope, h => by
      obtain ⟨i, hi⟩ := checkExpr_unary_form s env hint op e
      rw [hi] at h
      exact whole_of_made (e := e) (Make.succeeds_unary h)
  | .binary op l r s, env, hint, scope, h => by
      obtain ⟨hint', i, hi⟩ := checkExpr_binary_form s env hint op l r
      rw [hi] at h
      exact ⟨whole_of_made (Make.succeeds_binary h).1, whole_of_made (Make.succeeds_binary h).2⟩
  | .seq es s, env, hint, scope, h => by
      obtain ⟨hints, i, hi⟩ := checkExpr_seq_form s env hint es
      rw [hi] at h
      have hes : Make.Succeeds (Make.exprs scope (checkExprs env hints es).value) :=
        Make.succeeds_seq h
      exact wholeList_of_made hes
  | .index e p s, env, hint, scope, h => by
      obtain ⟨i, hi⟩ := checkExpr_index_form s env hint e p
      rw [hi] at h
      exact ⟨whole_of_made (Make.succeeds_index h).1, whole_of_made (Make.succeeds_index h).2⟩
  | .call f as s, env, hint, scope, h => by
      obtain ⟨f', hints, i, hi, hf'⟩ := checkExpr_call_form s env hint f as
      rw [hi] at h
      obtain ⟨ctx, e', ctx', hmake⟩ := h
      obtain ⟨has, hf⟩ := Make.call_inv hmake
      refine ⟨?_, wholeList_of_made has⟩
      -- the name of a built-in stands for a call of its own, and is no callee of which code is made
      by_cases hname : ∃ x s', f = .name x s'
      · obtain ⟨x, s', rfl⟩ := hname
        trivial
      · have heq := hf'.resolve_right hname
        rcases hf with ⟨j, hf⟩ | hf
        · exact absurd (name_of_checkExpr_builtin (heq.symm.trans hf)) hname
        · rw [heq] at hf
          exact whole_of_made hf
  | .lambda ps b cs s, env, hint, scope, h => by
      obtain ⟨ps', env', rs, body, i, hi, hbody⟩ := checkExpr_lambda_form s env hint ps b cs
      rw [hi] at h
      obtain ⟨scope', hblock⟩ := Make.succeeds_closure h
      have hb : Make.Succeeds (Make.expr scope' (checkExpr env' .none b).value) := by
        rcases hbody with rfl | rfl
        · exact hblock.bind_inv.1.bind_inv.1
        · exact (Make.succeeds_cons hblock.bind_inv.1.bind_inv.1).1
      exact whole_of_made (e := b) hb
  | .block ps rs b cs s, env, hint, scope, h => by
      rw [checkExpr_block_form] at h
      obtain ⟨scope', hblock⟩ := Make.succeeds_closure h
      have hb : Source.Stmt.WholeBlock b := wholeBlock_of_made hblock
      exact hb
  | .error s, _, _, _, h => by
      obtain ⟨ctx, a, ctx', hmake⟩ := h
      obtain ⟨t, ctx₁, -, h₁⟩ := hmake.bind_inv
      cases h₁

theorem wholeList_of_made :
    ∀ {es : List Source.Expr} {env : Env} {hints : Nat → Hint} {scope : Scope},
      Make.Succeeds (Make.exprs scope (checkExprs env hints es).value) → Source.Expr.WholeList es
  | [], _, _, _, _ => trivial
  | e :: es, env, hints, scope, h => by
      simp only [checkExprs, Report.value_bind, Report.value_pure] at h
      have hparts := Make.succeeds_cons h
      exact ⟨whole_of_made hparts.1, wholeList_of_made hparts.2⟩

/-- A statement of which code was made, once it was checked, is whole. -/
theorem wholeStmt_of_made :
    ∀ {c : Source.Stmt} {env : Env} {scope : Scope},
      (∀ c' ∈ (checkStmt env c).value.1, Make.Succeeds (Make.stmt scope c')) → c.Whole
  | .declare _ _ _ e _, env, scope, h => by
      have hc := h _ rfl
      exact whole_of_made (e := e) hc.bind_inv.1
  | .expr e _, env, scope, h => by
      have hc := h _ rfl
      exact whole_of_made (e := e) hc.bind_inv.1
  | .assign x e _, env, scope, h => by
      obtain ⟨-, y, hy⟩ := (h _ rfl).bind_inv
      exact whole_of_made (e := e) hy.bind_inv.1
  | .ifThen c b _, env, scope, h => by
      obtain ⟨hc, c', hc'⟩ := (h _ rfl).bind_inv
      exact ⟨whole_of_made hc, wholeBlock_of_made hc'.bind_inv.1⟩
  | .ifElse c b d _, env, scope, h => by
      obtain ⟨hc, c', hc'⟩ := (h _ rfl).bind_inv
      obtain ⟨hb, b', hb'⟩ := hc'.bind_inv
      exact ⟨whole_of_made hc, wholeBlock_of_made hb, wholeBlock_of_made hb'.bind_inv.1⟩
  | .while c b _, env, scope, h => by
      obtain ⟨hc, c', hc'⟩ := (h _ rfl).bind_inv
      exact ⟨whole_of_made hc, wholeBlock_of_made hc'.bind_inv.1⟩
  | .return es _, env, scope, h => by
      have hes : Source.Expr.WholeList es := wholeList_of_made (h _ rfl).bind_inv.1
      exact hes
  | .error _, _, _, _ => trivial

theorem wholeBlock_of_made :
    ∀ {ss : List Source.Stmt} {env : Env} {scope : Scope},
      Make.Succeeds (Make.block scope (checkBlock env ss).value) → Source.Stmt.WholeBlock ss
  | [], _, _, _ => trivial
  | c :: ss, env, scope, h => by
      simp only [checkBlock, Report.value_bind, Report.value_pure] at h
      cases hval : (checkStmt env c).value.1 with
      | none =>
          rw [hval] at h
          have hnone : ∀ c' ∈ (checkStmt env c).value.1, Make.Succeeds (Make.stmt scope c') := by
            rw [hval]
            simp
          exact ⟨wholeStmt_of_made hnone, wholeBlock_of_made h⟩
      | some c' =>
          rw [hval] at h
          obtain ⟨hc, ⟨c'', scope'⟩, hrest⟩ := h.bind_inv
          have hsome : ∀ c' ∈ (checkStmt env c).value.1, Make.Succeeds (Make.stmt scope c') := by
            rw [hval]
            simpa using hc
          exact ⟨wholeStmt_of_made hsome, wholeBlock_of_made hrest.bind_inv.1⟩

end

/-- **A program of which code was made, once it was checked, is whole.** -/
theorem Module.whole_of_ofTyped {p : Source.Program} {m : Module}
    (h : Module.ofTyped (Typed.Program.check p).value = .ok m) : p.Whole := by
  intro f hf
  have hmem : (checkFunction (signatures p) f).value ∈ (Typed.Program.check p).value.functions := by
    rw [value_check]
    exact List.mem_map_of_mem hf
  obtain ⟨g, -, hg⟩ := mem_of_forall₂_right (Module.ofTyped_eq_ok_iff.1 h).flip hmem
  obtain ⟨scope, hblock⟩ := Function.block_succeeds hg
  rw [checkFunction_value] at hblock
  exact wholeBlock_of_made hblock

end Rivulet.Ir
