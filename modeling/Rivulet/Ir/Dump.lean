import Rivulet.Ir.Tree

/-!
# Dumps of intermediate code

The structure of every node of intermediate code.
-/

set_option autoImplicit false

namespace Rivulet.Ir

open Text (Dump)

def LocalId.dump (x : LocalId) : Dump := .apply "LocalId" [.nat x.index]

def Site.dump (s : Site) : Dump := .apply "AllocId" [.nat s.index]

def Const.dump : Const → Dump
  | .int n => .apply "Int" [.word n]
  | .bool b => .apply "Bool" [.bool b]
  | .str s => .apply "Str" [.text s]

def Bounds.dump : Bounds → Dump
  | .checked => .atom "Checked"
  | .elided => .atom "Elided"

def OperandUse.dump : OperandUse → Dump
  | .readOnly => .atom "ReadOnly"
  | .closureRules => .atom "ClosureRules"

def MapFacts.dump (m : MapFacts) : Dump :=
  .record "MapEscape"
    [("seq", m.sequence.dump), ("func", m.callable.dump), ("result", m.result.dump)]

/-- An expression of the given kind. -/
def exprDump (kind : Dump) (i : Info) : Dump :=
  .record "IrExpr" [("kind", kind), ("ty", i.ty.dump), ("span", i.span.dump)]

mutual

/-- The structure of an expression. -/
def Expr.dump : Expr → Dump
  | .const c i => exprDump (.apply "Const" [c.dump]) i
  | .local x i => exprDump (.apply "Local" [x.dump]) i
  | .function f i => exprDump (.apply "FuncRef" [.text f]) i
  | .builtin b i => exprDump (.apply "Builtin" [.atom b.label]) i
  | .unary op e i => exprDump (.record "Unary" [("op", .atom op.label), ("expr", e.dump)]) i
  | .binary op l r t m i =>
      exprDump
        (.record "Binary"
          [("op", .atom op.label), ("lhs", l.dump), ("rhs", r.dump),
           ("operand_ty", .option (t.map Ty.dump)), ("escape", .option (m.map MapFacts.dump))])
        i
  | .call f as i =>
      exprDump (.record "Call" [("callee", f.dump), ("args", .items (Expr.dumpList as))]) i
  | .index e p b i =>
      exprDump (.record "Index" [("seq", e.dump), ("index", p.dump), ("bounds", b.dump)]) i
  | .len e i => exprDump (.apply "Len" [e.dump]) i
  | .alloc t e s i =>
      exprDump (.record "Alloc" [("elem", t.dump), ("len", e.dump), ("site", s.dump)]) i
  | .slice es s i =>
      exprDump (.record "SliceLit" [("elements", .items (Expr.dumpList es)), ("site", s.dump)]) i
  | .closure ps rs cs b i =>
      exprDump
        (.apply "Closure"
          [.record "IrClosure"
            [("params", .items (ps.map LocalId.dump)), ("results", .items (rs.map Ty.dump)),
             ("captures", .items (cs.map LocalId.dump)), ("body", .items (Stmt.dumpList b))]])
        i
termination_by structural e => e

/-- The structures of several expressions. -/
def Expr.dumpList : List Expr → List Dump
  | [] => []
  | e :: es => e.dump :: Expr.dumpList es
termination_by structural es => es

/-- The structure of a statement. -/
def Stmt.dump : Stmt → Dump
  | .bind x e => .record "Let" [("local", x.dump), ("value", e.dump)]
  | .assign x e => .record "Assign" [("local", x.dump), ("value", e.dump)]
  | .store s p v b =>
      .record "Store"
        [("seq", s.dump), ("index", p.dump), ("value", v.dump), ("bounds", b.dump)]
  | .expr e => .apply "Expr" [e.dump]
  | .return es => .apply "Return" [.items (Expr.dumpList es)]
  | .if c t e =>
      .record "If"
        [("cond", c.dump), ("then_block", .items (Stmt.dumpList t)),
         ("else_block", .items (Stmt.dumpList e))]
  | .while c b => .record "While" [("cond", c.dump), ("body", .items (Stmt.dumpList b))]
  | .break => .atom "Break"
  | .for x a z b =>
      .record "ForRange"
        [("var", x.dump), ("start", a.dump), ("end", z.dump), ("body", .items (Stmt.dumpList b))]
termination_by structural s => s

/-- The structures of several statements. -/
def Stmt.dumpList : List Stmt → List Dump
  | [] => []
  | s :: ss => s.dump :: Stmt.dumpList ss
termination_by structural ss => ss

end

def LocalInfo.dump (l : LocalInfo) : Dump :=
  .record "LocalInfo" [("name", .text l.name), ("ty", l.ty.dump), ("temp", .bool l.temp)]

def Context.dump (ctx : Context) : Dump :=
  .record "FunctionCtx"
    [("locals", .record "LocalTable" [("locals", .items (ctx.locals.toList.map LocalInfo.dump))]),
     ("next_temp", .nat ctx.nextTemp), ("next_alloc", .nat ctx.nextSite)]

/-- The structure of a function. -/
def Function.dump (f : Function) : Dump :=
  .record "IrFunction"
    [("name", .text f.name), ("params", .items (f.params.map LocalId.dump)),
     ("results", .items (f.results.map Ty.dump)), ("body", .items (Stmt.dumpList f.body)),
     ("ctx", f.ctx.dump), ("span", f.span.dump)]

/-- The structure of a module. -/
def Module.dump (m : Module) : Dump :=
  .record "IrModule" [("functions", .items (m.functions.map Function.dump))]

end Rivulet.Ir
