import Rivulet.Ir.Breach
import Rivulet.Ir.Tree
import Rivulet.Typed.Tree

/-!
# Code of a typed program

Intermediate code is made from a typed program function by function. Names of locals become numbers:
every declaration gets a number of its own, so that a name which is declared twice means two locals.
Sequence literals get allocation sites, in the order in which they end.

Main definition: `Module.ofTyped`. It fails only if the program holds something that was rejected.
-/

set_option autoImplicit false

namespace Rivulet.Ir

/-- Names in scope and their numbers, the innermost first. -/
abbrev Scope := List (String × LocalId)

/-- The making of code, with the context of the function at hand. -/
abbrev Make := StateT Context (Except Breach)

namespace Make

/-- Give up. -/
def breach {α : Type} (cause : Breach.Cause) (span : Span) : Make α := throw ⟨cause, span⟩

/-- A new local. -/
def declare (name : String) (ty : Ty) : Make LocalId := do
  let (x, ctx) := (← get).declare name ty
  set ctx
  pure x

/-- A new allocation site. -/
def freshSite : Make Site := do
  let (s, ctx) := (← get).freshSite
  set ctx
  pure s

/-- The number of a name. -/
def lookup (scope : Scope) (name : String) (span : Span) : Make LocalId :=
  match scope.lookup name with
  | some x => pure x
  | none => breach (.unresolvedLocal name) span

/-- The common type of two operands, if the operator asks for one. -/
def operandType (op : BinaryOp) (l r : Expr) (span : Span) : Make (Option Ty) :=
  if op.rule.isHomogeneous then
    match Typing.commonType? l.ty r.ty with
    | some t => pure (some t)
    | none => breach (.noCommonType op) span
  else pure none

/-- New locals for parameters, and the scope with them. -/
def params (scope : Scope) : List Typed.Param → Make (List LocalId × Scope)
  | [] => pure ([], scope)
  | p :: ps => do
      let t ← Ty.ofTy p.ty p.span
      let x ← declare p.name t
      let (xs, scope) ← params ((p.name, x) :: scope) ps
      pure (x :: xs, scope)

mutual

/-- The code of an expression. A call of `len` with one argument becomes a length. -/
def expr (scope : Scope) : Typed.Expr → Make Expr
  | .int n i => do
      let t ← Ty.ofTy i.ty i.span
      pure (.const (.int n) ⟨t, i.span⟩)
  | .bool b i => do
      let t ← Ty.ofTy i.ty i.span
      pure (.const (.bool b) ⟨t, i.span⟩)
  | .str s i => do
      let t ← Ty.ofTy i.ty i.span
      pure (.const (.str s) ⟨t, i.span⟩)
  | .local x i => do
      let t ← Ty.ofTy i.ty i.span
      let x ← lookup scope x i.span
      pure (.local x ⟨t, i.span⟩)
  | .function f i => do
      let t ← Ty.ofTy i.ty i.span
      pure (.function f ⟨t, i.span⟩)
  | .builtin b i => do
      let t ← Ty.ofTy i.ty i.span
      pure (.builtin b ⟨t, i.span⟩)
  | .unary op e i => do
      let t ← Ty.ofTy i.ty i.span
      let e ← expr scope e
      pure (.unary op e ⟨t, i.span⟩)
  | .binary op l r i => do
      let t ← Ty.ofTy i.ty i.span
      let l ← expr scope l
      let r ← expr scope r
      let common ← operandType op l r i.span
      pure (.binary op l r common none ⟨t, i.span⟩)
  | .seq es i => do
      let t ← Ty.ofTy i.ty i.span
      let es ← exprs scope es
      let s ← freshSite
      pure (.slice es s ⟨t, i.span⟩)
  | .index e p i => do
      let t ← Ty.ofTy i.ty i.span
      let e ← expr scope e
      let p ← expr scope p
      pure (.index e p .checked ⟨t, i.span⟩)
  | .call (.builtin .len _) [e] i => do
      let t ← Ty.ofTy i.ty i.span
      let e ← expr scope e
      pure (.len e ⟨t, i.span⟩)
  | .call f as i => do
      let t ← Ty.ofTy i.ty i.span
      let f ← expr scope f
      let as ← exprs scope as
      pure (.call f as ⟨t, i.span⟩)
  | .closure ps rs b cs i => do
      let t ← Ty.ofTy i.ty i.span
      let cs ← cs.mapM fun x => lookup scope x i.span
      let (ps, scope) ← params scope ps
      let rs ← Ty.ofTys rs i.span
      let b ← block scope b
      pure (.closure ps rs cs b ⟨t, i.span⟩)
  | .error i => do
      let _ ← Ty.ofTy i.ty i.span
      breach .errorExpr i.span
termination_by structural e => e

/-- The code of several expressions. -/
def exprs (scope : Scope) : List Typed.Expr → Make (List Expr)
  | [] => pure []
  | e :: es => do
      let e ← expr scope e
      let es ← exprs scope es
      pure (e :: es)
termination_by structural es => es

/-- The code of a statement, and the scope behind it. A name comes into scope after the value that
it is declared with. -/
def stmt (scope : Scope) : Typed.Stmt → Make (Stmt × Scope)
  | .declare _ x t e s => do
      let e ← expr scope e
      let t ← Ty.ofTy t s
      let y ← declare x t
      pure (.bind y e, (x, y) :: scope)
  | .assign x e s => do
      let y ← lookup scope x s
      let e ← expr scope e
      pure (.assign y e, scope)
  | .if c t e _ => do
      let c ← expr scope c
      let t ← block scope t
      let e ← block scope e
      pure (.if c t e, scope)
  | .while c b _ => do
      let c ← expr scope c
      let b ← block scope b
      pure (.while c b, scope)
  | .return es _ => do
      let es ← exprs scope es
      pure (.return es, scope)
  | .expr e _ => do
      let e ← expr scope e
      pure (.expr e, scope)
termination_by structural s => s

/-- The code of a block. -/
def block (scope : Scope) : List Typed.Stmt → Make (List Stmt)
  | [] => pure []
  | s :: ss => do
      let (s, scope) ← stmt scope s
      let ss ← block scope ss
      pure (s :: ss)
termination_by structural ss => ss

end

/-- The parameters, the results and the body of a function. -/
def function (f : Typed.Function) : Make (List LocalId × List Ty × List Stmt) := do
  let (ps, scope) ← params [] f.params
  let rs ← Ty.ofTys f.results f.span
  let b ← block scope f.body
  pure (ps, rs, b)

end Make

/-- The code of a function. -/
def Function.ofTyped (f : Typed.Function) : Except Breach Function := do
  let ((ps, rs, b), ctx) ← (Make.function f).run {}
  pure ⟨f.name, ps, rs, b, ctx, f.span⟩

/-- The code of a program. -/
def Module.ofTyped (p : Typed.Program) : Except Breach Module := do
  let fs ← p.functions.mapM Function.ofTyped
  pure ⟨fs⟩

end Rivulet.Ir
