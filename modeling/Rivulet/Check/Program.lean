import Rivulet.Check.Rule

/-!
# The checker

The checker walks a written program once. It resolves every name, gives every expression a type, and
collects everything that is wrong; it never stops early. The signatures of all functions are known
before the first body is checked, so functions can call each other in any order.

Main definition: `Typed.Program.check`.
-/

set_option autoImplicit false

namespace Rivulet.Check

open Typing (Finding expect)

mutual

/-- Check an expression. The hint gives types to closures and to empty sequences. -/
def checkExpr (env : Env) (hint : Hint) : Source.Expr → Checked Typed.Expr
  | .literal v s => pure (literal v s)
  | .name x s => name env x s
  | .unary op e s => do
      let e ← checkExpr env .none e
      unary op e s
  | .binary op l r s => do
      let l ← checkExpr env .none l
      let r ← checkExpr env (if op = .map then .mapOver l.ty else .none) r
      binary op l r s
  | .seq [] s => untypedEmpty hint s
  | .seq (e :: es) s => do
      let inner := Hint.ofOption (hint.expected?.bind Ty.element?)
      let e ← checkExpr env inner e
      let es ← checkExprs env (fun _ => inner) es
      seq e es s
  | .emptySeq t s => pure (.seq [] ⟨.seq (typeOf t), s⟩)
  | .index e i s => do
      let e ← checkExpr env .none e
      let i ← checkExpr env .none i
      index e i s
  | .call f as s =>
      match special? env f with
      | some b => do
          let as ← checkExprs env (fun _ => .none) as
          specialCall b f.span as s
      | none => do
          let f ← checkExpr env .none f
          let sig ← signature? f
          let hints := (sig.map Signature.params).getD []
          let as ← checkExprs env (fun i => .ofOption hints[i]?) as
          call f sig as s
  | .lambda ps b cs s => do
      let ps ← openParams hint 0 ps
      let b ← checkExpr (env.declareParams (declarations ps)) .none b
      pure (lambda ps b cs s)
  | .block ps rs b cs s => do
      let ps := params ps
      let results := typesOf rs
      let b ← checkBlock { env.declareParams (declarations ps) with results := results } b
      if !results.isEmpty && !Typed.Stmt.anyReturns b then reject .closureFallsThrough s
      pure (closure ps results b cs s)
  | .error s => pure (.poison s)
termination_by structural e => e

/-- Check several expressions, with a hint for each position. -/
def checkExprs (env : Env) (hints : Nat → Hint) : List Source.Expr → Checked (List Typed.Expr)
  | [] => pure []
  | e :: es => do
      let e ← checkExpr env (hints 0) e
      let es ← checkExprs env (fun i => hints (i + 1)) es
      pure (e :: es)
termination_by structural es => es

/-- Check a statement. The answer is the checked statement, unless it could not be parsed, and what
is known behind it. -/
def checkStmt (env : Env) : Source.Stmt → Checked (Option Typed.Stmt × Env)
  | .declare c x t e s => do
      let written := t.map typeOf
      let e ← checkExpr env (.ofOption written) e
      let t ← declaration x written e
      pure (some (.declare c x t e s), env.declare x ⟨t, c⟩)
  | .assign x e s => do
      let l := env.local? x
      let e ← checkExpr env (.ofOption (l.map Local.ty)) e
      assignment l x e s
      pure (some (.assign x e s), env)
  | .ifThen c t s => do
      let c ← checkExpr env .none c
      let _ ← expect .ifCondition .bool c.ty c.span
      let t ← checkBlock env t
      pure (some (.if c t [] s), env)
  | .ifElse c t e s => do
      let c ← checkExpr env .none c
      let _ ← expect .ifCondition .bool c.ty c.span
      let t ← checkBlock env t
      let e ← checkBlock env e
      pure (some (.if c t e s), env)
  | .while c b s => do
      let c ← checkExpr env .none c
      let _ ← expect .whileCondition .bool c.ty c.span
      let b ← checkBlock env b
      pure (some (.while c b s), env)
  | .return es s => do
      let hints := if es.length = env.results.length then env.results else []
      let es ← checkExprs env (fun i => .ofOption hints[i]?) es
      return_ env.results es s
      pure (some (.return es s), env)
  | .expr e s => do
      let e ← checkExpr env .none e
      pure (some (.expr e s), env)
  | .error _ => pure (none, env)
termination_by structural s => s

/-- Check the statements of a block. -/
def checkBlock (env : Env) : List Source.Stmt → Checked (List Typed.Stmt)
  | [] => pure []
  | s :: ss => do
      let (s, env) ← checkStmt env s
      let ss ← checkBlock env ss
      pure (s.toList ++ ss)
termination_by structural ss => ss

end

/-- The written signature of a function. -/
def signature (f : Source.Function) : Signature :=
  ⟨f.params.map fun p => typeOf p.ty, f.results.map typeOf⟩

/-- The functions of a program; of two definitions of one name the later stands first. -/
def signatures (p : Source.Program) : List (String × Signature) :=
  (p.functions.map fun f => (f.name, signature f)).reverse

/-- Check a function. Its signature is the one that its name has in the program. -/
def checkFunction (functions : List (String × Signature)) (f : Source.Function) :
    Checked Typed.Function := do
  let sig := (functions.lookup f.name).getD ⟨[], []⟩
  if f.name = "main" ∧ f.params ≠ [] then reject .mainParams f.span
  let ps := f.params.zipWith (fun p t => (⟨p.name, t, p.span⟩ : Typed.Param)) sig.params
  let env : Env := ⟨functions, [], sig.results⟩
  let b ← checkBlock (env.declareParams (declarations ps)) f.body
  if !sig.results.isEmpty && !Typed.Stmt.anyReturns b then
    reject (.functionFallsThrough f.name) f.span
  pure ⟨f.name, ps, sig.results, b, f.span⟩

end Rivulet.Check

namespace Rivulet.Typed

open Check

/-- Check a program. -/
def Program.check (p : Source.Program) : Checked Program := do
  let fs ← p.functions.mapM (checkFunction (signatures p))
  pure ⟨fs⟩

end Rivulet.Typed
