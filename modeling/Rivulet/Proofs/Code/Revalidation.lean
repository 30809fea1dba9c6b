import Rivulet.Proofs.Code.SilentValidation

set_option autoImplicit false

/-! # Validating twice

Validation writes the types that it derives into the code, and the types that it wrote are what a
second validation reads. This file says that the second one finds nothing to change, whatever was
written on the code at first, and that it makes the same reports in the same order, but for one kind
(`Module.validate_twice`).

A derived type depends on the parts of an expression and on the tables of its function, and neither
changes any more. The exception is the empty literal, which keeps its own type: if that is not the
type of a slice, then it is reported and made `invalid`, and nothing `invalid` is reported again. -/

namespace Rivulet

/-- Whether the fault is that an empty literal does not have the type of a sequence. -/
def Typing.Fault.isEmptyLiteral {τ : Type} : Typing.Fault τ → Bool
  | .emptyLiteral _ => true
  | _ => false

namespace Ir

open Typing (Finding Fault expect)

/-- What is to be reported on an expression that is an empty literal and whose written type is neither
that of a slice nor `invalid`. -/
def Expr.emptyLiteral? : Expr → Option (Finding Ty)
  | .slice [] _ i =>
      if i.ty.element? = none ∧ i.ty ≠ .invalid then
        some { fault := .emptyLiteral i.ty, span := i.span }
      else none
  | _ => none

/-- What is to be reported on the empty literals of a function, in the order of the code. -/
def Function.emptyLiterals (f : Function) : List (Finding Ty) :=
  f.parts.filterMap Expr.emptyLiteral?

namespace Validate

variable {α β : Type}

/-! ## Reports that stay and reports that go -/

/-- The report without what was found on empty literals. -/
def Valid.again (r : Valid α) : Valid α :=
  ⟨r.value, r.findings.filter fun f => !f.fault.isEmptyLiteral⟩

/-- What was found on empty literals. -/
def Valid.empties (r : Valid α) : List (Finding Ty) :=
  r.findings.filter fun f => f.fault.isEmptyLiteral

/-- Nothing was found on empty literals. -/
def Valid.Lasting (r : Valid α) : Prop := ∀ f ∈ r.findings, f.fault.isEmptyLiteral = false

/-- If a step is left as it is but for what goes, and so is what follows, then so are both
together. What follows need only agree on the value of the step. -/
theorem again_bind {r : Valid α} {f g : α → Valid β} (h : f r.value = Valid.again (g r.value)) :
    Valid.again r >>= f = Valid.again (r >>= g) := by
  have hfindings : (f r.value).findings
      = (g r.value).findings.filter fun f => !f.fault.isEmptyLiteral := by rw [h]; rfl
  have hvalue : (f r.value).value = (g r.value).value := by rw [h]; rfl
  show Report.mk (f r.value).value
      ((r.findings.filter fun f => !f.fault.isEmptyLiteral) ++ (f r.value).findings)
    = ⟨(g r.value).value, (r.findings ++ (g r.value).findings).filter _⟩
  rw [hvalue, hfindings, List.filter_append]

theorem empties_pure (a : α) : Valid.empties (pure a : Valid α) = [] := rfl

theorem empties_bind (r : Valid α) (f : α → Valid β) :
    Valid.empties (r >>= f) = Valid.empties r ++ Valid.empties (f r.value) := by
  simp only [Valid.empties, Report.findings_bind, List.filter_append]

namespace Valid.Lasting

variable {r : Valid α} {f g : α → Valid β}

theorem again_eq (hr : Lasting r) : again r = r := by
  have hall : (r.findings.filter fun f => !f.fault.isEmptyLiteral) = r.findings :=
    List.filter_eq_self.2 fun f hf => by rw [hr f hf]; rfl
  rw [again, hall]

theorem empties_eq (hr : Lasting r) : empties r = [] :=
  List.filter_eq_nil_iff.2 fun f hf => by rw [hr f hf]; decide

/-- A step at which nothing goes. -/
theorem then_again (hr : Lasting r) (h : f r.value = again (g r.value)) :
    r >>= f = again (r >>= g) := by
  have hbind := again_bind (r := r) h
  rwa [hr.again_eq] at hbind

theorem pure (a : α) : Lasting (pure a : Valid α) := nofun

theorem bind (hr : Lasting r) (hf : Lasting (f r.value)) : Lasting (r >>= f) := by
  intro d hd
  rcases List.mem_append.1 hd with hd | hd
  · exact hr d hd
  · exact hf d hd

theorem tell {d : Finding Ty} (hd : d.fault.isEmptyLiteral = false) : Lasting (Report.tell d) := by
  intro e he
  rwa [List.mem_singleton.1 he]

theorem reject {fault : Fault Ty} (h : fault.isEmptyLiteral = false) (span : Span) :
    Lasting (reject fault span) := bind (tell h) (pure _)

end Valid.Lasting

/-! ## The rules

Every rule but that of empty literals depends on the parts of an expression alone, and reports
nothing that goes. -/

open Valid (Lasting)

theorem lasting_expect (place : Typing.Place) (t u : Ty) (span : Span) :
    Lasting (expect place t u span) := by
  unfold expect
  split
  · exact .pure _
  · exact .bind (.tell rfl) (.pure _)

theorem lasting_functionTy (sigs : Signatures) (f : String) (span : Span) :
    Lasting (functionTy sigs f span) := by
  unfold functionTy
  split
  · exact .pure _
  · exact .reject rfl _

theorem lasting_builtinTy (b : Builtin) (span : Span) : Lasting (builtinTy b span) := by
  unfold builtinTy
  split
  · exact .pure _
  · exact .reject rfl _

theorem lasting_unaryTy (op : UnaryOp) (e : Expr) : Lasting (unaryTy op e) := by
  unfold unaryTy
  split
  · exact .pure _
  · split
    · exact .pure _
    · exact .reject rfl _

theorem lasting_binaryTy (op : BinaryOp) (l r : Expr) (span : Span) :
    Lasting (binaryTy op l r span) := by
  unfold binaryTy
  split
  · exact .pure _
  · exact .reject rfl _

theorem lasting_indexTy (s p : Expr) : Lasting (indexTy s p) := by
  unfold indexTy
  split
  · exact .pure _
  · split
    · exact .bind (lasting_expect _ _ _ _) (.pure _)
    · exact .reject rfl _

theorem lasting_lenTy (e : Expr) : Lasting (lenTy e) := by
  unfold lenTy
  split
  · exact .pure _
  · split
    · exact .pure _
    · exact .reject rfl _

theorem lasting_allocTy (t : Ty) (n : Expr) : Lasting (allocTy t n) :=
  .bind (lasting_expect _ _ _ _) (.pure _)

theorem lasting_sameElements (first : Ty) (es : List Expr) : Lasting (sameElements first es) := by
  induction es with
  | nil => exact .pure _
  | cons e es ih =>
      unfold sameElements
      split
      · exact ih
      · exact .bind (.reject rfl _) (.bind ih (.pure _))

theorem lasting_sliceTy (t : Ty) (e : Expr) (es : List Expr) (span : Span) :
    Lasting (sliceTy t (e :: es) span) := by
  rw [sliceTy]
  split
  · exact .pure _
  · exact .bind (lasting_sameElements _ _) (.pure _)

theorem lasting_arguments : ∀ (n : Nat) (as : List Expr) (ps : List Ty), Lasting (arguments n as ps)
  | _, [], _ => by unfold arguments; exact .pure _
  | _, _ :: _, [] => .pure _
  | n, _ :: as, _ :: ps =>
      .bind (lasting_expect _ _ _ _) (.bind (lasting_arguments (n + 1) as ps) (.pure _))

theorem lasting_callTy (f : Expr) (as : List Expr) (span : Span) : Lasting (callTy f as span) := by
  unfold callTy
  split
  · exact .pure _
  · split
    · exact .reject rfl _
    · exact .bind (lasting_arguments _ _ _) (.pure _)
  · exact .reject rfl _

theorem lasting_printTy (as : List Expr) (span : Span) : Lasting (printTy as span) := by
  unfold printTy
  split
  · exact .reject rfl _
  · exact .pure _

theorem lasting_return (expected : List Ty) (values : List Expr) :
    Lasting (return_ expected values) := by
  unfold return_
  dsimp only
  split
  · exact .pure _
  · split
    · exact .tell rfl
    · split
      · exact .tell rfl
      · exact .pure _

theorem lasting_store (s p v : Expr) : Lasting (store s p v) := by
  refine .bind (lasting_expect _ _ _ _) ?_
  split
  · exact .bind (lasting_expect _ _ _ _) (.pure _)
  · split
    · exact .pure _
    · exact .tell rfl

theorem lasting_bound (ctx : Context) (x : LocalId) (e : Expr) : Lasting (bound ctx x e) :=
  .bind (lasting_expect _ _ _ _) (.pure _)

theorem lasting_condition (c : Expr) : Lasting (condition c) :=
  .bind (lasting_expect _ _ _ _) (.pure _)

theorem lasting_range (ctx : Context) (x : LocalId) (a z : Expr) : Lasting (range ctx x a z) :=
  .bind (lasting_expect _ _ _ _) (.bind (lasting_expect _ _ _ _)
    (.bind (lasting_expect _ _ _ _) (.pure _)))

/-- The rule of literals, given the type that it derived before. An empty literal that was rejected
is `invalid` by now. -/
theorem sliceTy_again (t : Ty) (es : List Expr) (span : Span) :
    sliceTy (sliceTy t es span).value es span = Valid.again (sliceTy t es span) := by
  cases es with
  | nil =>
      by_cases h : t.element? = none ∧ t ≠ .invalid
      · -- the report goes, as `invalid` is what the second validation reads
        simp only [sliceTy, if_pos h]
        rfl
      · simp only [sliceTy, if_neg h, Report.value_pure]
        rfl
  | cons e es => exact (lasting_sliceTy t e es span).again_eq.symm

/-- The common type of the operands is written once. -/
theorem operandTy_again (op : BinaryOp) (l : Expr) (t : Ty) (old : Option Ty) :
    operandTy op l t (operandTy op l t old) = operandTy op l t old := by
  unfold operandTy
  split <;> rfl

/-- A call of anything but `println`. -/
theorem expr_call (sc : Scene) {f : Expr} (hf : ∀ j, f ≠ .builtin .println j) (as : List Expr)
    (i : Info) :
    expr sc (.call f as i) = (do
      let as ← exprs sc as
      let f ← expr sc f
      let t ← callTy f as i.span
      pure (.call f as ⟨t, i.span⟩)) := by
  rw [expr]
  exact hf

/-- Validation makes no `println` of anything else. -/
theorem expr_ne_println {sc : Scene} {f : Expr} (hf : ∀ j, f ≠ .builtin .println j) (j : Info) :
    (expr sc f).value ≠ .builtin .println j := by
  intro h
  cases f with
  | builtin b i =>
      obtain ⟨rfl, -⟩ := Expr.builtin.inj h
      exact hf i rfl
  | call g as i =>
      by_cases hg : ∃ k, g = .builtin .println k
      · obtain ⟨k, rfl⟩ := hg
        cases h
      · rw [expr_call sc fun k hk => hg ⟨k, hk⟩] at h
        cases h
  | _ => cases h

/-! ## The second validation -/

section Walk

variable {sc : Scene}

mutual

theorem expr_again : ∀ e : Expr, expr sc (expr sc e).value = Valid.again (expr sc e)
  | .const c i => rfl
  | .local x i => rfl
  | .function f i => (lasting_functionTy _ f i.span).then_again rfl
  | .builtin b i => (lasting_builtinTy b i.span).then_again rfl
  | .unary op e i => by
      simp only [expr, Report.value_bind, Report.value_pure, expr_again e]
      exact again_bind ((lasting_unaryTy op _).then_again rfl)
  | .binary op l r common facts i => by
      simp only [expr, Report.value_bind, Report.value_pure, expr_again l, expr_again r]
      refine again_bind (again_bind ((lasting_binaryTy op _ _ i.span).then_again ?_))
      -- the type of the operands stands beside that of the expression, and is kept or overwritten
      rw [operandTy_again]
      rfl
  | .call f as i => by
      -- the rule is chosen by the callee, so the second validation must choose the same one
      by_cases hprint : ∃ j, f = .builtin .println j
      · obtain ⟨j, rfl⟩ := hprint
        simp only [expr, Report.value_bind, Report.value_pure, exprs_again as]
        exact again_bind ((lasting_printTy _ i.span).then_again rfl)
      · have hf : ∀ j, f ≠ .builtin .println j := fun j hj => hprint ⟨j, hj⟩
        rw [expr_call sc hf]
        simp only [Report.value_bind, Report.value_pure]
        rw [expr_call sc (expr_ne_println hf), exprs_again as]
        simp only [expr_again f]
        exact again_bind (again_bind ((lasting_callTy _ _ i.span).then_again rfl))
  | .index s p b i => by
      simp only [expr, Report.value_bind, Report.value_pure, expr_again s, expr_again p]
      exact again_bind (again_bind ((lasting_indexTy _ _).then_again rfl))
  | .len e i => by
      simp only [expr, Report.value_bind, Report.value_pure, expr_again e]
      exact again_bind ((lasting_lenTy _).then_again rfl)
  | .alloc t n s i => by
      simp only [expr, Report.value_bind, Report.value_pure, expr_again n]
      exact again_bind ((lasting_allocTy t _).then_again rfl)
  | .slice es s i => by
      simp only [expr, Report.value_bind, Report.value_pure, exprs_again es]
      refine again_bind ?_
      -- the only rule that reads the type written on the expression itself
      rw [sliceTy_again]
      exact again_bind rfl
  | .closure ps rs cs b i => by
      simp only [expr, Report.value_bind, Report.value_pure, block_again rs b]
      exact again_bind rfl

theorem exprs_again : ∀ es : List Expr, exprs sc (exprs sc es).value = Valid.again (exprs sc es)
  | [] => rfl
  | e :: es => by
      simp only [exprs, Report.value_bind, Report.value_pure, expr_again e, exprs_again es]
      exact again_bind (again_bind rfl)

theorem stmt_again (rs : List Ty) :
    ∀ s : Stmt, stmt sc rs (stmt sc rs s).value = Valid.again (stmt sc rs s)
  | .bind x e | .assign x e => by
      simp only [stmt, Report.value_bind, Report.value_pure, expr_again e]
      exact again_bind ((lasting_bound _ x _).then_again rfl)
  | .store s p v b => by
      simp only [stmt, Report.value_bind, Report.value_pure, expr_again s, expr_again p,
        expr_again v]
      exact again_bind (again_bind (again_bind ((lasting_store _ _ _).then_again rfl)))
  | .expr e => by
      simp only [stmt, Report.value_bind, Report.value_pure, expr_again e]
      exact again_bind rfl
  | .return es => by
      simp only [stmt, Report.value_bind, Report.value_pure, exprs_again es]
      exact again_bind ((lasting_return rs _).then_again rfl)
  | .if c t e => by
      simp only [stmt, Report.value_bind, Report.value_pure, expr_again c, block_again rs t,
        block_again rs e]
      exact again_bind ((lasting_condition _).then_again (again_bind (again_bind rfl)))
  | .while c b => by
      simp only [stmt, Report.value_bind, Report.value_pure, expr_again c, block_again rs b]
      exact again_bind ((lasting_condition _).then_again (again_bind rfl))
  | .break => rfl
  | .for x a z b => by
      simp only [stmt, Report.value_bind, Report.value_pure, expr_again a, expr_again z,
        block_again rs b]
      exact again_bind (again_bind ((lasting_range _ x _ _).then_again (again_bind rfl)))

theorem block_again (rs : List Ty) :
    ∀ ss : List Stmt, block sc rs (block sc rs ss).value = Valid.again (block sc rs ss)
  | [] => rfl
  | s :: ss => by
      simp only [block, Report.value_bind, Report.value_pure, stmt_again rs s, block_again rs ss]
      exact again_bind (again_bind rfl)

end

/-! ## What goes

What the first validation finds on empty literals is what is to be reported on them. Arguments are
validated before the callee, hence the order may be another. -/

mutual

theorem empties_expr :
    ∀ e : Expr, (Valid.empties (expr sc e)).Perm (e.parts.filterMap Expr.emptyLiteral?)
  | .const c i | .local x i => .nil
  | .function f i => by
      rw [expr, empties_bind, (lasting_functionTy _ f i.span).empties_eq]
      exact .nil
  | .builtin b i => by
      rw [expr, empties_bind, (lasting_builtinTy b i.span).empties_eq]
      exact .nil
  | .unary op e i => by
      simp only [expr, empties_bind, (lasting_unaryTy op _).empties_eq, empties_pure,
        List.append_nil]
      exact empties_expr e
  | .binary op l r common facts i => by
      simp only [expr, empties_bind, (lasting_binaryTy op _ _ i.span).empties_eq, empties_pure,
        List.append_nil]
      rw [Expr.parts, List.filterMap_cons_none rfl, List.filterMap_append]
      exact (empties_expr l).append (empties_expr r)
  | .call f as i => by
      rw [Expr.parts, List.filterMap_cons_none rfl, List.filterMap_append]
      by_cases hprint : ∃ j, f = .builtin .println j
      · obtain ⟨j, rfl⟩ := hprint
        simp only [expr, empties_bind, (lasting_printTy _ i.span).empties_eq, empties_pure,
          List.append_nil]
        exact empties_exprs as
      · rw [expr_call sc fun j hj => hprint ⟨j, hj⟩]
        simp only [empties_bind, (lasting_callTy _ _ i.span).empties_eq, empties_pure,
          List.append_nil]
        -- the callee stands first in the code and is validated last
        exact ((empties_exprs as).append (empties_expr f)).trans List.perm_append_comm
  | .index s p b i => by
      simp only [expr, empties_bind, (lasting_indexTy _ _).empties_eq, empties_pure,
        List.append_nil]
      rw [Expr.parts, List.filterMap_cons_none rfl, List.filterMap_append]
      exact (empties_expr s).append (empties_expr p)
  | .len e i => by
      simp only [expr, empties_bind, (lasting_lenTy _).empties_eq, empties_pure,
        List.append_nil]
      exact empties_expr e
  | .alloc t n s i => by
      simp only [expr, empties_bind, (lasting_allocTy t _).empties_eq, empties_pure,
        List.append_nil]
      exact empties_expr n
  | .slice [] s i => by
      by_cases h : i.ty.element? = none ∧ i.ty ≠ .invalid
      · simp only [expr, exprs, sliceTy, if_pos h, Expr.parts, Expr.partsList, List.filterMap_cons,
          Expr.emptyLiteral?]
        exact .refl _
      · simp only [expr, exprs, sliceTy, if_neg h, Expr.parts, Expr.partsList, List.filterMap_cons,
          Expr.emptyLiteral?]
        exact .refl _
  | .slice (e :: es) s i => by
      simp only [expr, empties_bind, empties_pure, List.append_nil]
      have hrule : Valid.empties (sliceTy i.ty (exprs sc (e :: es)).value i.span) = [] :=
        (lasting_sliceTy i.ty _ _ i.span).empties_eq
      rw [hrule, List.append_nil, Expr.parts, List.filterMap_cons_none rfl]
      exact empties_exprs (e :: es)
  | .closure ps rs cs b i => by
      simp only [expr, empties_bind, empties_pure, List.append_nil]
      exact empties_block rs b

theorem empties_exprs : ∀ es : List Expr,
    (Valid.empties (exprs sc es)).Perm ((Expr.partsList es).filterMap Expr.emptyLiteral?)
  | [] => .nil
  | e :: es => by
      simp only [exprs, empties_bind, empties_pure, List.append_nil]
      rw [Expr.partsList, List.filterMap_append]
      exact (empties_expr e).append (empties_exprs es)

theorem empties_stmt (rs : List Ty) : ∀ s : Stmt,
    (Valid.empties (stmt sc rs s)).Perm (s.parts.filterMap Expr.emptyLiteral?)
  | .bind x e | .assign x e => by
      simp only [stmt, empties_bind, (lasting_bound _ x _).empties_eq, empties_pure,
        List.append_nil]
      exact empties_expr e
  | .store s p v b => by
      simp only [stmt, empties_bind, (lasting_store _ _ _).empties_eq, empties_pure,
        List.append_nil]
      rw [Stmt.parts, List.filterMap_append, List.filterMap_append, List.append_assoc]
      exact (empties_expr s).append ((empties_expr p).append (empties_expr v))
  | .expr e => by
      simp only [stmt, empties_bind, empties_pure, List.append_nil]
      exact empties_expr e
  | .return es => by
      simp only [stmt, empties_bind, (lasting_return rs _).empties_eq, empties_pure,
        List.append_nil]
      exact empties_exprs es
  | .if c t e => by
      simp only [stmt, empties_bind, (lasting_condition _).empties_eq, empties_pure,
        List.append_nil, List.nil_append]
      rw [Stmt.parts, List.filterMap_append, List.filterMap_append, List.append_assoc]
      exact (empties_expr c).append ((empties_block rs t).append (empties_block rs e))
  | .while c b => by
      simp only [stmt, empties_bind, (lasting_condition _).empties_eq, empties_pure,
        List.append_nil, List.nil_append]
      rw [Stmt.parts, List.filterMap_append]
      exact (empties_expr c).append (empties_block rs b)
  | .break => .nil
  | .for x a z b => by
      simp only [stmt, empties_bind, (lasting_range _ x _ _).empties_eq, empties_pure,
        List.append_nil, List.nil_append]
      rw [Stmt.parts, List.filterMap_append, List.filterMap_append, List.append_assoc]
      exact (empties_expr a).append ((empties_expr z).append (empties_block rs b))

theorem empties_block (rs : List Ty) : ∀ ss : List Stmt,
    (Valid.empties (block sc rs ss)).Perm ((Stmt.partsList ss).filterMap Expr.emptyLiteral?)
  | [] => .nil
  | s :: ss => by
      simp only [block, empties_bind, empties_pure, List.append_nil]
      rw [Stmt.partsList, List.filterMap_append]
      exact (empties_stmt rs s).append (empties_block rs ss)

end

end Walk

end Validate

/-! ## Modules -/

theorem Function.validate_again (sigs : Validate.Signatures) (f : Function) :
    (f.validate sigs).value.validate sigs = Validate.Valid.again (f.validate sigs) := by
  simp only [Function.validate, Report.value_bind, Report.value_pure, Validate.block_again]
  exact Validate.again_bind rfl

theorem Function.empties_validate (sigs : Validate.Signatures) (f : Function) :
    (Validate.Valid.empties (f.validate sigs)).Perm f.emptyLiterals := by
  simp only [Function.validate, Validate.empties_bind, Validate.empties_pure, List.append_nil]
  exact Validate.empties_block f.results f.body

/-- **Validating twice changes nothing more.** The second validation leaves a module as the first one
left it. It reports what the first one reported, in the same order, without the findings on empty
literals; and these are the findings on the literals of the module that are empty and have a type
other than that of a slice or `invalid`, one for each. So a module that was validated without a report
is validated again without one. -/
theorem Module.validate_twice (m : Module) :
    m.validate.value.validate.value = m.validate.value ∧
      m.validate.value.validate.findings
        = m.validate.findings.filter (fun f => !f.fault.isEmptyLiteral) ∧
      (m.validate.findings.filter fun f => f.fault.isEmptyLiteral).Perm
        (m.functions.flatMap Function.emptyLiterals) ∧
      (m.validate.findings = [] → m.validate.value.validate.findings = []) := by
  -- validation keeps the signatures, so that both validations read the same ones
  have hfunctions : m.validate.value.validate.value.functions = m.validate.value.functions := by
    rw [Module.functions_validate m.validate.value, Module.signatures_validate,
      Module.functions_validate, List.map_map]
    refine List.map_congr_left fun f _ => ?_
    show ((f.validate _).value.validate _).value = _
    rw [Function.validate_again]
    rfl
  have hfindings : m.validate.value.validate.findings
      = m.validate.findings.filter fun f => !f.fault.isEmptyLiteral := by
    rw [Module.findings_validate m.validate.value, Module.signatures_validate,
      Module.functions_validate, Module.findings_validate, List.flatMap_map, List.filter_flatMap]
    refine List.flatMap_congr fun f _ => ?_
    rw [Function.validate_again]
    rfl
  refine ⟨congrArg Module.mk hfunctions, hfindings, ?_, fun hsilent => ?_⟩
  · rw [Module.findings_validate, List.filter_flatMap]
    exact List.Perm.flatMap_left _ fun f _ => Function.empties_validate _ f
  · rw [hfindings, hsilent, List.filter_nil]

/-- An empty literal of integer type, bound to a local that is not in the table, and an integer that is
negated as a truth value: of the two reports, the second validation repeats one. -/
theorem Module.validate_twice_emptyLiteral :
    let i : Info := ⟨.i64, ⟨1, 3⟩⟩
    let m : Module := ⟨[⟨"main", [], [],
      [.bind ⟨7⟩ (.slice [] ⟨0⟩ i), .expr (.unary .not (.const (.int 1) i) i)], {}, ⟨0, 9⟩⟩]⟩
    m.validate.findings = [⟨.emptyLiteral .i64, i.span, []⟩, ⟨.unaryOperand .not .i64, i.span, []⟩] ∧
      m.validate.value.validate.findings = [⟨.unaryOperand .not .i64, i.span, []⟩] := by
  intro i m
  have hfirst : m.validate.findings
      = [⟨.emptyLiteral .i64, i.span, []⟩, ⟨.unaryOperand .not .i64, i.span, []⟩] := by
    decide +kernel
  refine ⟨hfirst, ?_⟩
  rw [m.validate_twice.2.1, hfirst]
  rfl

end Ir

end Rivulet
