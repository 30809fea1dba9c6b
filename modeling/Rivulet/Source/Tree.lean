import Rivulet.Operator
import Rivulet.Span

/-!
# Programs as they are written

The tree of a parsed program. Every node carries the span of text it was read from. The grammar
decides which shapes exist, and the types below admit no others: parameters of functions and of
closures with a block always have a written type, parameters of closures with an expression may have
one, and a literal for an empty sequence either has a written element type or none.

Where the text could not be parsed, the tree holds an `error` node for the stretch that was skipped.
-/

set_option autoImplicit false

namespace Rivulet.Source

/-! ## Written types -/

/-- A type with a name of its own. -/
inductive TypeName where
  | int
  | string
  | bool
deriving DecidableEq

namespace TypeName

/-- Every named type. -/
def all : List TypeName := [.int, .string, .bool]

/-- The name as it is written. -/
def spelling : TypeName → String
  | .int => "int"
  | .string => "string"
  | .bool => "bool"

/-- The type that is written like this. -/
def ofSpelling? (s : String) : Option TypeName := all.find? fun t => t.spelling == s

end TypeName

/-- A type as it is written. -/
inductive TypeExpr where
  | named (name : TypeName)
  /-- `[T]` -/
  | seq (element : TypeExpr)
  /-- `fn(T, U) -> R` or `fn(T) -> (R, S)` -/
  | func (params results : List TypeExpr)

/-! ## Parameters -/

/-- A parameter with its type. -/
structure Param where
  name : String
  ty : TypeExpr
  span : Span

/-- A parameter of a closure with an expression, whose type may be left out. -/
structure OpenParam where
  name : String
  ty : Option TypeExpr
  span : Span

/-! ## Expressions and statements -/

/-- A literal. -/
inductive Literal where
  | int (value : Int64)
  | str (value : String)
  | bool (value : Bool)
deriving DecidableEq

mutual

/-- An expression. -/
inductive Expr where
  | literal (value : Literal) (span : Span)
  | name (name : String) (span : Span)
  | unary (op : UnaryOp) (operand : Expr) (span : Span)
  | binary (op : BinaryOp) (lhs rhs : Expr) (span : Span)
  /-- `[a, b, c]` -/
  | seq (elements : List Expr) (span : Span)
  /-- `[]T` -/
  | emptySeq (element : TypeExpr) (span : Span)
  | index (sequence position : Expr) (span : Span)
  | call (callee : Expr) (args : List Expr) (span : Span)
  /-- `x -> e` or `(x, y: T) -> e`. The list `captured` holds the locals of the surroundings that
  the body uses; it is empty until captures have been resolved. -/
  | lambda (params : List OpenParam) (body : Expr) (captured : List String) (span : Span)
  /-- `(x: T) -> R { … }` -/
  | block (params : List Param) (results : List TypeExpr) (body : List Stmt)
      (captured : List String) (span : Span)
  /-- Text that could not be parsed. -/
  | error (span : Span)

/-- A statement. -/
inductive Stmt where
  | declare (isConst : Bool) (name : String) (ty : Option TypeExpr) (value : Expr) (span : Span)
  | assign (target : String) (value : Expr) (span : Span)
  | ifThen (condition : Expr) (thenBlock : List Stmt) (span : Span)
  | ifElse (condition : Expr) (thenBlock elseBlock : List Stmt) (span : Span)
  | while (condition : Expr) (body : List Stmt) (span : Span)
  | return (values : List Expr) (span : Span)
  | expr (value : Expr) (span : Span)
  /-- Text that could not be parsed. -/
  | error (span : Span)

end

/-- The span of an expression. -/
def Expr.span : Expr → Span
  | .literal _ s | .name _ s | .unary _ _ s | .binary _ _ _ s | .seq _ s | .emptySeq _ s
  | .index _ _ s | .call _ _ s | .lambda _ _ _ s | .block _ _ _ _ s | .error s => s

/-- The same expression at another span. An expression in parentheses stands for the expression
inside, but at the span of the parentheses. -/
def Expr.withSpan (e : Expr) (s : Span) : Expr :=
  match e with
  | .literal v _ => .literal v s
  | .name x _ => .name x s
  | .unary op e _ => .unary op e s
  | .binary op l r _ => .binary op l r s
  | .seq es _ => .seq es s
  | .emptySeq t _ => .emptySeq t s
  | .index e i _ => .index e i s
  | .call f as _ => .call f as s
  | .lambda ps b cs _ => .lambda ps b cs s
  | .block ps rs b cs _ => .block ps rs b cs s
  | .error _ => .error s

/-- The span of a statement. -/
def Stmt.span : Stmt → Span
  | .declare _ _ _ _ s | .assign _ _ s | .ifThen _ _ s | .ifElse _ _ _ s | .while _ _ s
  | .return _ s | .expr _ s | .error s => s

/-! ## Programs -/

/-- A function definition. -/
structure Function where
  name : String
  params : List Param
  results : List TypeExpr
  body : List Stmt
  span : Span

/-- A program. -/
structure Program where
  functions : List Function

end Rivulet.Source
