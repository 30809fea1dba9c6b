import Rivulet.Typed.Ty

/-!
# Typed programs

The tree that the checker builds from a written program. Every expression carries the type it was
given, names are told apart into locals, functions and builtins, and closures always have a list of
statements as their body. An expression that was rejected has type `poison`; one that could not be
understood at all is an `error` node.
-/

set_option autoImplicit false

namespace Rivulet.Typed

/-- What is known of every expression. -/
structure Info where
  ty : Ty
  span : Span
deriving DecidableEq

/-- A parameter with its type. -/
structure Param where
  name : String
  ty : Ty
  span : Span
deriving DecidableEq

mutual

/-- An expression. -/
inductive Expr where
  | int (value : Int64) (info : Info)
  | bool (value : Bool) (info : Info)
  | str (value : String) (info : Info)
  | local (name : String) (info : Info)
  | function (name : String) (info : Info)
  | builtin (builtin : Builtin) (info : Info)
  | unary (op : UnaryOp) (operand : Expr) (info : Info)
  | binary (op : BinaryOp) (lhs rhs : Expr) (info : Info)
  | seq (elements : List Expr) (info : Info)
  | index (sequence position : Expr) (info : Info)
  | call (callee : Expr) (args : List Expr) (info : Info)
  | closure (params : List Param) (results : List Ty) (body : List Stmt) (captures : List String)
      (info : Info)
  | error (info : Info)

/-- A statement. -/
inductive Stmt where
  | declare (isConst : Bool) (name : String) (ty : Ty) (value : Expr) (span : Span)
  | assign (name : String) (value : Expr) (span : Span)
  | if (condition : Expr) (thenBlock elseBlock : List Stmt) (span : Span)
  | while (condition : Expr) (body : List Stmt) (span : Span)
  | return (values : List Expr) (span : Span)
  | expr (value : Expr) (span : Span)

end

namespace Expr

/-- The type and the span of an expression. -/
def info : Expr → Info
  | .int _ i | .bool _ i | .str _ i | .local _ i | .function _ i | .builtin _ i | .unary _ _ i
  | .binary _ _ _ i | .seq _ i | .index _ _ i | .call _ _ i | .closure _ _ _ _ i | .error i => i

/-- The type of an expression. -/
def ty (e : Expr) : Ty := e.info.ty

/-- The span of an expression. -/
def span (e : Expr) : Span := e.info.span

/-- An expression that could not be understood. -/
def poison (span : Span) : Expr := .error ⟨.poison, span⟩

end Expr

mutual

/-- Whether every path through a statement ends in a return. -/
def Stmt.returns : Stmt → Bool
  | .return _ _ => true
  | .if _ t e _ => Stmt.anyReturns t && Stmt.anyReturns e
  | _ => false
termination_by structural s => s

/-- Whether every path through a block ends in a return. -/
def Stmt.anyReturns : List Stmt → Bool
  | [] => false
  | s :: ss => s.returns || Stmt.anyReturns ss
termination_by structural ss => ss

end

/-- A function definition. -/
structure Function where
  name : String
  params : List Param
  results : List Ty
  body : List Stmt
  span : Span

/-- The type of a function. -/
def Function.ty (f : Function) : Ty := .func (f.params.map Param.ty) f.results

/-- A program. -/
structure Program where
  functions : List Function

end Rivulet.Typed
