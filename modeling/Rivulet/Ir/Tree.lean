import Rivulet.Ir.Context

/-!
# Intermediate code

Statements over typed expressions. Two levels share one tree. Code that comes from a program still
has `|>` as a binary operator; *lowered* code has only what a machine can do directly: locals, calls,
subscripts, lengths, allocations, stores and counted loops.

The lists `Expr.parts` and `Stmt.parts` hold every expression of a piece of code, an expression
before its parts and from left to right, and go into the bodies of closures. What is counted or
collected over code is counted or collected over these lists.
-/

set_option autoImplicit false

namespace Rivulet.Ir

/-- A constant. -/
inductive Const where
  | int (value : Int64)
  | bool (value : Bool)
  | str (value : String)
deriving DecidableEq

/-- Whether a subscript is checked. -/
inductive Bounds where
  | checked
  /-- The subscript is known to be in bounds. -/
  | elided
deriving DecidableEq

/-- How the element loop of a map uses an operand. -/
inductive OperandUse where
  /-- It is only read. -/
  | readOnly
  /-- It escapes as any closure does. -/
  | closureRules
deriving DecidableEq

/-- What is recorded on a map before it is lowered. -/
structure MapFacts where
  sequence : OperandUse := .readOnly
  callable : OperandUse := .closureRules
  /-- The allocation site of the result. -/
  result : Site
deriving DecidableEq

/-- What is known of every expression. -/
structure Info where
  ty : Ty
  span : Span
deriving DecidableEq

mutual

/-- An expression. -/
inductive Expr where
  | const (value : Const) (info : Info)
  | local (id : LocalId) (info : Info)
  | function (name : String) (info : Info)
  | builtin (builtin : Builtin) (info : Info)
  | unary (op : UnaryOp) (operand : Expr) (info : Info)
  /-- A binary operator with the common type of its operands and, on a map, what is recorded on
  it. -/
  | binary (op : BinaryOp) (lhs rhs : Expr) (operandTy : Option Ty) (facts : Option MapFacts)
      (info : Info)
  | call (callee : Expr) (args : List Expr) (info : Info)
  | index (sequence position : Expr) (bounds : Bounds) (info : Info)
  | len (operand : Expr) (info : Info)
  /-- A fresh slice of zero values. -/
  | alloc (element : Ty) (length : Expr) (site : Site) (info : Info)
  /-- A fresh slice of given elements. -/
  | slice (elements : List Expr) (site : Site) (info : Info)
  /-- A closure; the locals `captures` of its surroundings are shared with it. -/
  | closure (params : List LocalId) (results : List Ty) (captures : List LocalId)
      (body : List Stmt) (info : Info)

/-- A statement. -/
inductive Stmt where
  /-- Bind a local to a fresh cell. -/
  | bind (target : LocalId) (value : Expr)
  /-- Overwrite the cell of a local. -/
  | assign (target : LocalId) (value : Expr)
  /-- Overwrite an element of a slice. -/
  | store (sequence position value : Expr) (bounds : Bounds)
  | expr (value : Expr)
  | return (values : List Expr)
  | if (condition : Expr) (thenBlock elseBlock : List Stmt)
  | while (condition : Expr) (body : List Stmt)
  | break
  /-- Count a local from the first value up to, but not including, the second. -/
  | for (counter : LocalId) (first last : Expr) (body : List Stmt)

end

namespace Expr

/-- The type and the span of an expression. -/
def info : Expr → Info
  | .const _ i | .local _ i | .function _ i | .builtin _ i | .unary _ _ i | .binary _ _ _ _ _ i
  | .call _ _ i | .index _ _ _ i | .len _ i | .alloc _ _ _ i | .slice _ _ i
  | .closure _ _ _ _ i => i

/-- The type of an expression. -/
def ty (e : Expr) : Ty := e.info.ty

/-- The span of an expression. -/
def span (e : Expr) : Span := e.info.span

/-- Whether an expression is a map. -/
def isMap : Expr → Bool
  | .binary op _ _ _ _ _ => op == .map
  | _ => false

/-- The allocation site of an expression that creates a slice. -/
def site? : Expr → Option Site
  | .alloc _ _ s _ | .slice _ s _ => some s
  | _ => none

end Expr

/-- The function of a module. -/
structure Function where
  name : String
  params : List LocalId
  results : List Ty
  body : List Stmt
  ctx : Context
  span : Span

/-- A module. -/
structure Module where
  functions : List Function

/-! ## All expressions of a piece of code -/

mutual

/-- An expression and everything in it. -/
def Expr.parts : Expr → List Expr
  | .const c i => [.const c i]
  | .local x i => [.local x i]
  | .function f i => [.function f i]
  | .builtin b i => [.builtin b i]
  | .unary op e i => .unary op e i :: e.parts
  | .binary op l r t m i => .binary op l r t m i :: (l.parts ++ r.parts)
  | .call f as i => .call f as i :: (f.parts ++ Expr.partsList as)
  | .index e p b i => .index e p b i :: (e.parts ++ p.parts)
  | .len e i => .len e i :: e.parts
  | .alloc t e s i => .alloc t e s i :: e.parts
  | .slice es s i => .slice es s i :: Expr.partsList es
  | .closure ps rs cs b i => .closure ps rs cs b i :: Stmt.partsList b
termination_by structural e => e

/-- Several expressions and everything in them. -/
def Expr.partsList : List Expr → List Expr
  | [] => []
  | e :: es => e.parts ++ Expr.partsList es
termination_by structural es => es

/-- Every expression of a statement. -/
def Stmt.parts : Stmt → List Expr
  | .bind _ e | .assign _ e | .expr e => e.parts
  | .store s p v _ => s.parts ++ p.parts ++ v.parts
  | .return es => Expr.partsList es
  | .if c t e => c.parts ++ Stmt.partsList t ++ Stmt.partsList e
  | .while c b => c.parts ++ Stmt.partsList b
  | .break => []
  | .for _ a z b => a.parts ++ z.parts ++ Stmt.partsList b
termination_by structural s => s

/-- Every expression of a block. -/
def Stmt.partsList : List Stmt → List Expr
  | [] => []
  | s :: ss => s.parts ++ Stmt.partsList ss
termination_by structural ss => ss

end

theorem Expr.mem_parts_self (e : Expr) : e ∈ e.parts := by
  cases e <;> simp [Expr.parts]

theorem Expr.mem_partsList_of_mem {e : Expr} {es : List Expr} (he : e ∈ es) :
    e ∈ Expr.partsList es := by
  induction es with
  | nil => cases he
  | cons d es ih =>
      rcases List.mem_cons.1 he with rfl | he
      · exact List.mem_append_left _ e.mem_parts_self
      · exact List.mem_append_right _ (ih he)

namespace Function

/-- Every expression of a function. -/
def parts (f : Function) : List Expr := Stmt.partsList f.body

/-- The number of maps in a function. -/
def mapCount (f : Function) : Nat := f.parts.countP Expr.isMap

/-- The allocation sites in a function, in the order of the code. -/
def sites (f : Function) : List Site := f.parts.filterMap Expr.site?

/-- The type of a function. -/
def signature (f : Function) : Ty := .func (f.params.map f.ctx.typeOf) f.results

end Function

/-- The first function of the given name. -/
def Module.function? (m : Module) (name : String) : Option Function :=
  m.functions.find? fun f => f.name == name

end Rivulet.Ir
