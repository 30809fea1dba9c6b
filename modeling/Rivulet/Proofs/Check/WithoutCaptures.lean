import Rivulet.Proofs.Check.Captures

set_option autoImplicit false

/-! # The checker does not look at captures

The capture list of a closure is handed from the written tree to the checked one, and that is all that
happens to it: it makes no difference whether the captures are taken out of a program before or after
it is checked (`check_withoutCaptures`). In particular the findings are the same for any captures. So
what is known of programs with the captures that resolving computes can be carried over to programs
with whatever captures. -/

namespace Rivulet

/-! ## Written trees without captures -/

namespace Source

mutual

/-- The expression with no captures in its closures. -/
def Expr.withoutCaptures : Expr → Expr
  | .literal v s => .literal v s
  | .name x s => .name x s
  | .unary op e s => .unary op e.withoutCaptures s
  | .binary op l r s => .binary op l.withoutCaptures r.withoutCaptures s
  | .seq es s => .seq (Expr.withoutCapturesList es) s
  | .emptySeq t s => .emptySeq t s
  | .index e i s => .index e.withoutCaptures i.withoutCaptures s
  | .call f as s => .call f.withoutCaptures (Expr.withoutCapturesList as) s
  | .lambda ps b _ s => .lambda ps b.withoutCaptures [] s
  | .block ps rs b _ s => .block ps rs (Stmt.withoutCapturesBlock b) [] s
  | .error s => .error s
termination_by structural e => e

/-- Several expressions with no captures in their closures. -/
def Expr.withoutCapturesList : List Expr → List Expr
  | [] => []
  | e :: es => e.withoutCaptures :: Expr.withoutCapturesList es
termination_by structural es => es

/-- The statement with no captures in its closures. -/
def Stmt.withoutCaptures : Stmt → Stmt
  | .declare c x t e s => .declare c x t e.withoutCaptures s
  | .assign x e s => .assign x e.withoutCaptures s
  | .ifThen c t s => .ifThen c.withoutCaptures (Stmt.withoutCapturesBlock t) s
  | .ifElse c t e s =>
      .ifElse c.withoutCaptures (Stmt.withoutCapturesBlock t) (Stmt.withoutCapturesBlock e) s
  | .while c b s => .while c.withoutCaptures (Stmt.withoutCapturesBlock b) s
  | .return es s => .return (Expr.withoutCapturesList es) s
  | .expr e s => .expr e.withoutCaptures s
  | .error s => .error s
termination_by structural s => s

/-- The statements of a block with no captures in their closures. -/
def Stmt.withoutCapturesBlock : List Stmt → List Stmt
  | [] => []
  | s :: ss => s.withoutCaptures :: Stmt.withoutCapturesBlock ss
termination_by structural ss => ss

end

@[simp] theorem Expr.span_withoutCaptures (e : Expr) : e.withoutCaptures.span = e.span := by
  cases e <;> rfl

@[simp] theorem Expr.length_withoutCapturesList (es : List Expr) :
    (Expr.withoutCapturesList es).length = es.length := by
  induction es with
  | nil => rfl
  | cons e es ih => simp only [Expr.withoutCapturesList, List.length_cons, ih]

mutual

/-- Resolving writes nothing but captures. -/
theorem Expr.withoutCaptures_resolve (visible : List String) :
    ∀ e : Expr, (e.resolve visible).withoutCaptures = e.withoutCaptures
  | .literal _ _ | .name _ _ | .emptySeq _ _ | .error _ => rfl
  | .unary _ e _ => by
      simp only [Expr.resolve, Expr.withoutCaptures, Expr.withoutCaptures_resolve visible e]
  | .binary _ l r _ => by
      simp only [Expr.resolve, Expr.withoutCaptures, Expr.withoutCaptures_resolve visible l,
        Expr.withoutCaptures_resolve visible r]
  | .seq es _ => by
      simp only [Expr.resolve, Expr.withoutCaptures, Expr.withoutCapturesList_resolve visible es]
  | .index e i _ => by
      simp only [Expr.resolve, Expr.withoutCaptures, Expr.withoutCaptures_resolve visible e,
        Expr.withoutCaptures_resolve visible i]
  | .call f as _ => by
      simp only [Expr.resolve, Expr.withoutCaptures, Expr.withoutCaptures_resolve visible f,
        Expr.withoutCapturesList_resolve visible as]
  | .lambda _ b _ _ => by
      simp only [Expr.resolve, Expr.withoutCaptures, Expr.withoutCaptures_resolve _ b]
  | .block _ _ b _ _ => by
      simp only [Expr.resolve, Expr.withoutCaptures, Stmt.withoutCapturesBlock_resolve _ b]

theorem Expr.withoutCapturesList_resolve (visible : List String) : ∀ es : List Expr,
    Expr.withoutCapturesList (Expr.resolveList visible es) = Expr.withoutCapturesList es
  | [] => rfl
  | e :: es => by
      simp only [Expr.resolveList, Expr.withoutCapturesList, Expr.withoutCaptures_resolve visible e,
        Expr.withoutCapturesList_resolve visible es]

theorem Stmt.withoutCaptures_resolve (visible : List String) :
    ∀ s : Stmt, (s.resolve visible).withoutCaptures = s.withoutCaptures
  | .declare _ _ _ e _ | .assign _ e _ | .expr e _ => by
      simp only [Stmt.resolve, Stmt.withoutCaptures, Expr.withoutCaptures_resolve visible e]
  | .ifThen c t _ => by
      simp only [Stmt.resolve, Stmt.withoutCaptures, Expr.withoutCaptures_resolve visible c,
        Stmt.withoutCapturesBlock_resolve visible t]
  | .ifElse c t e _ => by
      simp only [Stmt.resolve, Stmt.withoutCaptures, Expr.withoutCaptures_resolve visible c,
        Stmt.withoutCapturesBlock_resolve visible t, Stmt.withoutCapturesBlock_resolve visible e]
  | .while c b _ => by
      simp only [Stmt.resolve, Stmt.withoutCaptures, Expr.withoutCaptures_resolve visible c,
        Stmt.withoutCapturesBlock_resolve visible b]
  | .return es _ => by
      simp only [Stmt.resolve, Stmt.withoutCaptures, Expr.withoutCapturesList_resolve visible es]
  | .error _ => rfl

theorem Stmt.withoutCapturesBlock_resolve (visible : List String) : ∀ ss : List Stmt,
    Stmt.withoutCapturesBlock (Stmt.resolveBlock visible ss) = Stmt.withoutCapturesBlock ss
  | [] => rfl
  | s :: ss => by
      simp only [Stmt.resolveBlock, Stmt.withoutCapturesBlock, Stmt.withoutCaptures_resolve visible s,
        Stmt.withoutCapturesBlock_resolve _ ss]

end

/-- The function with no captures in its closures. -/
def Function.withoutCaptures (f : Function) : Function :=
  { f with body := Stmt.withoutCapturesBlock f.body }

/-- The program with no captures in its closures. -/
def Program.withoutCaptures (p : Program) : Program := ⟨p.functions.map Function.withoutCaptures⟩

theorem Program.withoutCaptures_resolveAmong (visible : Function → List String) (p : Program) :
    (p.resolveAmong visible).withoutCaptures = p.withoutCaptures := by
  have hfunction : ∀ f : Function, (f.resolveAmong (visible f)).withoutCaptures = f.withoutCaptures :=
    fun f => by
      simp only [Function.withoutCaptures, Function.resolveAmong, Stmt.withoutCapturesBlock_resolve]
  simp only [Program.withoutCaptures, Program.resolveAmong, List.map_map, Function.comp_def, hfunction]

end Source

/-! ## Checked trees without captures -/

namespace Typed

mutual

/-- The expression with no captures in its closures. -/
def Expr.withoutCaptures : Expr → Expr
  | .int n i => .int n i
  | .bool b i => .bool b i
  | .str s i => .str s i
  | .local x i => .local x i
  | .function f i => .function f i
  | .builtin b i => .builtin b i
  | .unary op e i => .unary op e.withoutCaptures i
  | .binary op l r i => .binary op l.withoutCaptures r.withoutCaptures i
  | .seq es i => .seq (Expr.withoutCapturesList es) i
  | .index e p i => .index e.withoutCaptures p.withoutCaptures i
  | .call f as i => .call f.withoutCaptures (Expr.withoutCapturesList as) i
  | .closure ps rs b _ i => .closure ps rs (Stmt.withoutCapturesBlock b) [] i
  | .error i => .error i
termination_by structural e => e

/-- Several expressions with no captures in their closures. -/
def Expr.withoutCapturesList : List Expr → List Expr
  | [] => []
  | e :: es => e.withoutCaptures :: Expr.withoutCapturesList es
termination_by structural es => es

/-- The statement with no captures in its closures. -/
def Stmt.withoutCaptures : Stmt → Stmt
  | .declare c x t e s => .declare c x t e.withoutCaptures s
  | .assign x e s => .assign x e.withoutCaptures s
  | .if c t e s =>
      .if c.withoutCaptures (Stmt.withoutCapturesBlock t) (Stmt.withoutCapturesBlock e) s
  | .while c b s => .while c.withoutCaptures (Stmt.withoutCapturesBlock b) s
  | .return es s => .return (Expr.withoutCapturesList es) s
  | .expr e s => .expr e.withoutCaptures s
termination_by structural s => s

/-- The statements of a block with no captures in their closures. -/
def Stmt.withoutCapturesBlock : List Stmt → List Stmt
  | [] => []
  | s :: ss => s.withoutCaptures :: Stmt.withoutCapturesBlock ss
termination_by structural ss => ss

end

@[simp] theorem Expr.info_withoutCaptures (e : Expr) : e.withoutCaptures.info = e.info := by
  cases e <;> rfl

@[simp] theorem Expr.ty_withoutCaptures (e : Expr) : e.withoutCaptures.ty = e.ty := by
  simp only [Expr.ty, Expr.info_withoutCaptures]

@[simp] theorem Expr.span_withoutCaptures (e : Expr) : e.withoutCaptures.span = e.span := by
  simp only [Expr.span, Expr.info_withoutCaptures]

@[simp] theorem Expr.withoutCapturesList_eq (es : List Expr) :
    Expr.withoutCapturesList es = es.map Expr.withoutCaptures := by
  induction es with
  | nil => rfl
  | cons e es ih => rw [Expr.withoutCapturesList, ih, List.map_cons]

@[simp] theorem Stmt.withoutCapturesBlock_eq (ss : List Stmt) :
    Stmt.withoutCapturesBlock ss = ss.map Stmt.withoutCaptures := by
  induction ss with
  | nil => rfl
  | cons s ss ih => rw [Stmt.withoutCapturesBlock, ih, List.map_cons]

mutual

@[simp] theorem Stmt.returns_withoutCaptures : ∀ s : Stmt, s.withoutCaptures.returns = s.returns
  | .declare _ _ _ _ _ | .assign _ _ _ | .while _ _ _ | .return _ _ | .expr _ _ => rfl
  | .if _ t e _ => by
      simp only [Stmt.withoutCaptures, Stmt.returns, Stmt.anyReturns_withoutCaptures t,
        Stmt.anyReturns_withoutCaptures e]

theorem Stmt.anyReturns_withoutCaptures :
    ∀ ss : List Stmt, Stmt.anyReturns (Stmt.withoutCapturesBlock ss) = Stmt.anyReturns ss
  | [] => rfl
  | s :: ss => by
      simp only [Stmt.withoutCapturesBlock, Stmt.anyReturns, Stmt.returns_withoutCaptures s,
        Stmt.anyReturns_withoutCaptures ss]

end

/-- The function with no captures in its closures. -/
def Function.withoutCaptures (f : Function) : Function :=
  { f with body := Stmt.withoutCapturesBlock f.body }

/-- The program with no captures in its closures. -/
def Program.withoutCaptures (p : Program) : Program := ⟨p.functions.map Function.withoutCaptures⟩

end Typed

/-! ## The rules -/

namespace Check

open Typing (expect)

section Rules

variable (span : Span)

theorem withoutCaptures_literal (v : Source.Literal) :
    (literal v span).withoutCaptures = literal v span := by
  cases v <;> rfl

theorem withoutCaptures_name (env : Env) (x : String) :
    Typed.Expr.withoutCaptures <$> name env x span = name env x span := by
  unfold name
  split
  · rfl
  · rfl
  · split <;> rfl
  · rfl

theorem withoutCaptures_untypedEmpty (hint : Hint) :
    Typed.Expr.withoutCaptures <$> untypedEmpty hint span = untypedEmpty hint span := by
  unfold untypedEmpty
  split <;> rfl

theorem unary_withoutCaptures (op : UnaryOp) (e : Typed.Expr) :
    unary op e.withoutCaptures span = Typed.Expr.withoutCaptures <$> unary op e span := by
  unfold unary
  rw [Typed.Expr.ty_withoutCaptures, Typed.Expr.span_withoutCaptures]
  split
  · rfl
  · split <;> rfl

theorem binary_withoutCaptures (op : BinaryOp) (l r : Typed.Expr) :
    binary op l.withoutCaptures r.withoutCaptures span
      = Typed.Expr.withoutCaptures <$> binary op l r span := by
  unfold binary
  simp only [Typed.Expr.ty_withoutCaptures, Typed.Expr.span_withoutCaptures]
  split <;> rfl

theorem sameElements_withoutCaptures (first : Ty) (es : List Typed.Expr) :
    sameElements first (es.map Typed.Expr.withoutCaptures) = sameElements first es := by
  induction es with
  | nil => rfl
  | cons e es ih =>
      simp only [List.map_cons, sameElements, Typed.Expr.ty_withoutCaptures,
        Typed.Expr.span_withoutCaptures, ih]

theorem any_ty_withoutCaptures (test : Ty → Bool) (es : List Typed.Expr) :
    ((es.map Typed.Expr.withoutCaptures).any fun e => test e.ty) = es.any fun e => test e.ty := by
  simp only [List.any_map, Function.comp_def, Typed.Expr.ty_withoutCaptures]

theorem seq_withoutCaptures (first : Typed.Expr) (rest : List Typed.Expr) :
    seq first.withoutCaptures (rest.map Typed.Expr.withoutCaptures) span
      = Typed.Expr.withoutCaptures <$> seq first rest span := by
  have hany := any_ty_withoutCaptures (fun t => decide (t = .poison)) (first :: rest)
  rw [List.map_cons] at hany
  simp only [seq, hany, Typed.Expr.ty_withoutCaptures, sameElements_withoutCaptures]
  split <;>
    simp only [map_pure, map_bind, Typed.Expr.withoutCaptures, Typed.Expr.withoutCapturesList_eq,
      List.map_cons]

theorem index_withoutCaptures (e p : Typed.Expr) :
    index e.withoutCaptures p.withoutCaptures span
      = Typed.Expr.withoutCaptures <$> index e p span := by
  unfold index
  simp only [Typed.Expr.ty_withoutCaptures, Typed.Expr.span_withoutCaptures]
  split
  · rfl
  · split
    · simp only [map_bind, map_pure, Typed.Expr.withoutCaptures]
    · rfl

theorem signature?_withoutCaptures (f : Typed.Expr) :
    signature? f.withoutCaptures = signature? f := by
  simp only [signature?, Typed.Expr.ty_withoutCaptures, Typed.Expr.span_withoutCaptures]

theorem arguments_withoutCaptures :
    ∀ (n : Nat) (as : List Typed.Expr) (ps : List Ty),
      arguments n (as.map Typed.Expr.withoutCaptures) ps = arguments n as ps
  | _, [], _ => by simp [arguments]
  | _, _ :: _, [] => by simp [arguments]
  | n, a :: as, p :: ps => by
      simp only [List.map_cons, arguments, Typed.Expr.ty_withoutCaptures,
        Typed.Expr.span_withoutCaptures, arguments_withoutCaptures (n + 1) as ps]

theorem call_withoutCaptures (f : Typed.Expr) (sig : Option Signature) (as : List Typed.Expr) :
    call f.withoutCaptures sig (as.map Typed.Expr.withoutCaptures) span
      = Typed.Expr.withoutCaptures <$> call f sig as span := by
  have hany := any_ty_withoutCaptures (fun t => decide (t = .poison)) as
  unfold call
  split
  · simp only [map_pure, Typed.Expr.withoutCaptures, Typed.Expr.withoutCapturesList_eq]
  · simp only [List.length_map, arguments_withoutCaptures, hany]
    split <;>
      simp only [map_bind, map_pure, Typed.Expr.withoutCaptures, Typed.Expr.withoutCapturesList_eq]

theorem specialType_withoutCaptures (b : Builtin) (as : List Typed.Expr) :
    specialType b (as.map Typed.Expr.withoutCaptures) span = specialType b as span := by
  rcases as with _ | ⟨a, _ | ⟨a', as⟩⟩
  · rfl
  · simp only [List.map_cons, List.map_nil, specialType, Typed.Expr.ty_withoutCaptures,
      Typed.Expr.span_withoutCaptures]
  · simp only [List.map_cons, specialType, List.length_cons, List.length_map]

theorem specialCall_withoutCaptures (b : Builtin) (callee : Span) (as : List Typed.Expr) :
    specialCall b callee (as.map Typed.Expr.withoutCaptures) span
      = Typed.Expr.withoutCaptures <$> specialCall b callee as span := by
  simp only [specialCall, specialType_withoutCaptures, List.map_map, Function.comp_def,
    Typed.Expr.ty_withoutCaptures, map_bind, map_pure, Typed.Expr.withoutCaptures,
    Typed.Expr.withoutCapturesList_eq]

theorem special?_withoutCaptures (env : Env) (f : Source.Expr) :
    special? env f.withoutCaptures = special? env f := by
  cases f <;> rfl

theorem lambda_withoutCaptures (ps : List Typed.Param) (v : Typed.Expr) (cs : List String) :
    lambda ps v.withoutCaptures [] span = (lambda ps v cs span).withoutCaptures := by
  simp only [lambda, Typed.Expr.ty_withoutCaptures, Typed.Expr.span_withoutCaptures]
  split <;> rfl

theorem returned_withoutCaptures (expected : List Ty) (es : List Typed.Expr) :
    returned expected (es.map Typed.Expr.withoutCaptures) = returned expected es := by
  rcases es with _ | ⟨e, _ | ⟨e', es⟩⟩ <;>
    simp [returned, Function.comp_def]

theorem return_withoutCaptures (expected : List Ty) (es : List Typed.Expr) :
    return_ expected (es.map Typed.Expr.withoutCaptures) span = return_ expected es span := by
  simp only [return_, returned_withoutCaptures]

theorem assignment_withoutCaptures (l : Option Local) (x : String) (e : Typed.Expr) :
    assignment l x e.withoutCaptures span = assignment l x e span := by
  simp only [assignment, Typed.Expr.ty_withoutCaptures, Typed.Expr.span_withoutCaptures]

theorem declaration_withoutCaptures (x : String) (written : Option Ty) (e : Typed.Expr) :
    declaration x written e.withoutCaptures = declaration x written e := by
  simp only [declaration, Typed.Expr.ty_withoutCaptures, Typed.Expr.span_withoutCaptures]

end Rules

/-! ## The walk -/

mutual

/-- Checking an expression without its captures gives the checked expression without its captures, and
the same findings. -/
theorem checkExpr_withoutCaptures (env : Env) : ∀ (hint : Hint) (e : Source.Expr),
    checkExpr env hint e.withoutCaptures
      = Typed.Expr.withoutCaptures <$> checkExpr env hint e
  | _, .literal v s => by
      simp only [Source.Expr.withoutCaptures, checkExpr, map_pure, withoutCaptures_literal]
  | _, .name x s => by
      simp only [Source.Expr.withoutCaptures, checkExpr, withoutCaptures_name]
  | _, .unary op e s => by
      simp only [Source.Expr.withoutCaptures, checkExpr, checkExpr_withoutCaptures env _ e,
        bind_map_left, map_bind, unary_withoutCaptures]
  | _, .binary op l r s => by
      simp only [Source.Expr.withoutCaptures, checkExpr, checkExpr_withoutCaptures env _ l,
        checkExpr_withoutCaptures env _ r, bind_map_left, map_bind, Typed.Expr.ty_withoutCaptures,
        binary_withoutCaptures]
  | hint, .seq [] s => by
      simp only [Source.Expr.withoutCaptures, Source.Expr.withoutCapturesList, checkExpr,
        withoutCaptures_untypedEmpty]
  | hint, .seq (e :: es) s => by
      simp only [Source.Expr.withoutCaptures, Source.Expr.withoutCapturesList, checkExpr,
        checkExpr_withoutCaptures env _ e, checkExprs_withoutCaptures env _ es, bind_map_left,
        map_bind, seq_withoutCaptures]
  | _, .emptySeq t s => rfl
  | _, .index e p s => by
      simp only [Source.Expr.withoutCaptures, checkExpr, checkExpr_withoutCaptures env _ e,
        checkExpr_withoutCaptures env _ p, bind_map_left, map_bind, index_withoutCaptures]
  | _, .call f as s => by
      simp only [Source.Expr.withoutCaptures, checkExpr, special?_withoutCaptures]
      split
      · simp only [checkExprs_withoutCaptures env _ as, bind_map_left, map_bind,
          Source.Expr.span_withoutCaptures, specialCall_withoutCaptures]
      · simp only [checkExpr_withoutCaptures env _ f, checkExprs_withoutCaptures env _ as,
          bind_map_left, map_bind, signature?_withoutCaptures, call_withoutCaptures]
  | hint, .lambda ps b cs s => by
      simp only [Source.Expr.withoutCaptures, checkExpr, checkExpr_withoutCaptures _ _ b,
        bind_map_left, map_bind, map_pure, lambda_withoutCaptures s _ _ cs]
  | _, .block ps rs b cs s => by
      simp only [Source.Expr.withoutCaptures, checkExpr, checkBlock_withoutCaptures _ b,
        bind_map_left, map_bind, ← Typed.Stmt.withoutCapturesBlock_eq,
        Typed.Stmt.anyReturns_withoutCaptures]
      -- what remains is the question whether the body returns, and captures have no say in it
      refine bind_congr fun b' => ?_
      split <;> rfl
  | _, .error s => rfl

theorem checkExprs_withoutCaptures (env : Env) : ∀ (hints : Nat → Hint) (es : List Source.Expr),
    checkExprs env hints (Source.Expr.withoutCapturesList es)
      = List.map Typed.Expr.withoutCaptures <$> checkExprs env hints es
  | _, [] => rfl
  | hints, e :: es => by
      simp only [Source.Expr.withoutCapturesList, checkExprs, checkExpr_withoutCaptures env _ e,
        checkExprs_withoutCaptures env _ es, bind_map_left, map_bind, map_pure, List.map_cons]

/-- Checking a statement without its captures: what is known behind it is the same. -/
theorem checkStmt_withoutCaptures (env : Env) : ∀ s : Source.Stmt,
    checkStmt env s.withoutCaptures
      = Prod.map (Option.map Typed.Stmt.withoutCaptures) id <$> checkStmt env s
  | .declare c x t e s => by
      simp only [Source.Stmt.withoutCaptures, checkStmt, checkExpr_withoutCaptures env _ e,
        bind_map_left, map_bind, map_pure, declaration_withoutCaptures]
      rfl
  | .assign x e s => by
      simp only [Source.Stmt.withoutCaptures, checkStmt, checkExpr_withoutCaptures env _ e,
        bind_map_left, map_bind, map_pure, assignment_withoutCaptures]
      rfl
  | .ifThen c t s => by
      simp only [Source.Stmt.withoutCaptures, checkStmt, checkExpr_withoutCaptures env _ c,
        checkBlock_withoutCaptures env t, bind_map_left, map_bind, map_pure,
        Typed.Expr.ty_withoutCaptures, Typed.Expr.span_withoutCaptures,
        ← Typed.Stmt.withoutCapturesBlock_eq]
      rfl
  | .ifElse c t e s => by
      simp only [Source.Stmt.withoutCaptures, checkStmt, checkExpr_withoutCaptures env _ c,
        checkBlock_withoutCaptures env t, checkBlock_withoutCaptures env e, bind_map_left, map_bind,
        map_pure, Typed.Expr.ty_withoutCaptures, Typed.Expr.span_withoutCaptures,
        ← Typed.Stmt.withoutCapturesBlock_eq]
      rfl
  | .while c b s => by
      simp only [Source.Stmt.withoutCaptures, checkStmt, checkExpr_withoutCaptures env _ c,
        checkBlock_withoutCaptures env b, bind_map_left, map_bind, map_pure,
        Typed.Expr.ty_withoutCaptures, Typed.Expr.span_withoutCaptures,
        ← Typed.Stmt.withoutCapturesBlock_eq]
      rfl
  | .return es s => by
      simp only [Source.Stmt.withoutCaptures, checkStmt, Source.Expr.length_withoutCapturesList,
        checkExprs_withoutCaptures env _ es, bind_map_left, map_bind, map_pure,
        return_withoutCaptures, Prod.map, Option.map_some, Typed.Stmt.withoutCaptures,
        Typed.Expr.withoutCapturesList_eq]
      rfl
  | .expr e s => by
      simp only [Source.Stmt.withoutCaptures, checkStmt, checkExpr_withoutCaptures env _ e,
        bind_map_left, map_bind, map_pure]
      rfl
  | .error s => rfl

/-- Checking a block without its captures. -/
theorem checkBlock_withoutCaptures (env : Env) : ∀ ss : List Source.Stmt,
    checkBlock env (Source.Stmt.withoutCapturesBlock ss)
      = List.map Typed.Stmt.withoutCaptures <$> checkBlock env ss
  | [] => rfl
  | s :: ss => by
      simp only [Source.Stmt.withoutCapturesBlock, checkBlock, checkStmt_withoutCaptures env s,
        bind_map_left, map_bind, map_pure]
      refine bind_congr fun p => ?_
      simp only [Prod.map, id, checkBlock_withoutCaptures p.2 ss, bind_map_left]
      refine bind_congr fun ss' => ?_
      cases p.1 <;> rfl

end

/-! ## Programs -/

/-- Checking a function without its captures. -/
theorem checkFunction_withoutCaptures (fs : List (String × Signature)) (f : Source.Function) :
    checkFunction fs f.withoutCaptures = Typed.Function.withoutCaptures <$> checkFunction fs f := by
  obtain ⟨name, params, results, body, span⟩ := f
  simp only [checkFunction, Source.Function.withoutCaptures, checkBlock_withoutCaptures,
    bind_map_left, ← Typed.Stmt.withoutCapturesBlock_eq, Typed.Stmt.anyReturns_withoutCaptures]
  split
  · simp only [map_bind]
    refine bind_congr fun _ => bind_congr fun b => ?_
    split <;> rfl
  · rw [map_bind]
    refine bind_congr fun b => ?_
    split <;> rfl

theorem signatures_withoutCaptures (p : Source.Program) :
    signatures p.withoutCaptures = signatures p := by
  simp only [signatures, Source.Program.withoutCaptures, List.map_map]
  rfl

theorem mapM_checkFunction_withoutCaptures (sigs : List (String × Signature))
    (fs : List Source.Function) :
    (fs.map Source.Function.withoutCaptures).mapM (checkFunction sigs)
      = List.map Typed.Function.withoutCaptures <$> fs.mapM (checkFunction sigs) := by
  induction fs with
  | nil => rfl
  | cons f fs ih =>
      simp only [List.map_cons, List.mapM_cons, checkFunction_withoutCaptures, ih, bind_map_left,
        map_bind, map_pure]

end Check

/-- **The checker does not look at captures.** Checking a program without its captures gives the checked
program without its captures, and the same findings. -/
theorem Typed.Program.check_withoutCaptures (p : Source.Program) :
    Typed.Program.check p.withoutCaptures
      = Typed.Program.withoutCaptures <$> Typed.Program.check p := by
  unfold Typed.Program.check
  rw [Check.signatures_withoutCaptures, Source.Program.withoutCaptures,
    Check.mapM_checkFunction_withoutCaptures, bind_map_left, map_bind]
  rfl

/-- **A program about which nothing is reported is well typed but for its captures**, whatever they
are: with the captures that resolving finds among the parameters that are in scope, it is well typed,
and all captures are in scope. -/
theorem Typed.Program.exists_wellTyped_of_check {p : Source.Program} (hw : p.Whole)
    (h : (Typed.Program.check p).findings = []) :
    ∃ t : Typed.Program, t.WellTyped (Check.signatures p) ∧ (∀ f ∈ t.functions, f.CapturesIn) ∧
      t.withoutCaptures = (Typed.Program.check p).value.withoutCaptures := by
  let kept : Source.Function → List String := fun f =>
    (Check.checkedParams (Check.signatureOf (Check.signatures p) f) f).map Typed.Param.name
  have hsame : Typed.Program.withoutCaptures <$> Typed.Program.check (p.resolveAmong kept)
      = Typed.Program.withoutCaptures <$> Typed.Program.check p := by
    rw [← Typed.Program.check_withoutCaptures, ← Typed.Program.check_withoutCaptures,
      Source.Program.withoutCaptures_resolveAmong]
  have hsilent : (Typed.Program.check (p.resolveAmong kept)).findings = [] := by
    rw [← h]
    simpa using congrArg Report.findings hsame
  refine ⟨(Typed.Program.check (p.resolveAmong kept)).value,
    Check.checkProgram_wellTyped_among hw (fun f _ => List.Subset.refl _) hsilent, ?_,
    by simpa using congrArg Report.value hsame⟩
  rw [Check.value_check_resolveAmong, List.forall_mem_map]
  intro f _
  exact (Check.capturesIn_checkFunction_among _ f (kept f)).2 fun x _ hx => hx

end Rivulet
