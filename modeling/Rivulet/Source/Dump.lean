import Rivulet.Source.Tree
import Rivulet.Text.Dump

/-!
# Dumps of written programs

The structure of every node of a written program. The dump shows a node as its kind and its span,
whatever constructor holds the two.
-/

set_option autoImplicit false

namespace Rivulet.Source

open Text (Dump)

mutual

/-- The structure of a written type. -/
def TypeExpr.dump : TypeExpr → Dump
  | .named n => .apply "Named" [.text n.spelling]
  | .seq t => .apply "Seq" [dump t]
  | .func ps rs =>
      .record "Func"
        [("params", .items (TypeExpr.dumpList ps)), ("results", .items (TypeExpr.dumpList rs))]
termination_by structural t => t

/-- The structures of several written types. -/
def TypeExpr.dumpList : List TypeExpr → List Dump
  | [] => []
  | t :: ts => t.dump :: TypeExpr.dumpList ts
termination_by structural ts => ts

end

/-- The structure of a parameter, given that of its type. -/
def paramDump (name : String) (ty : Option Dump) (span : Span) : Dump :=
  .record "Param" [("name", .text name), ("ty", .option ty), ("span", span.dump)]

def Param.dump (p : Param) : Dump := paramDump p.name (some p.ty.dump) p.span

def OpenParam.dump (p : OpenParam) : Dump := paramDump p.name (p.ty.map TypeExpr.dump) p.span

def Literal.dump : Literal → Dump
  | .int n => .apply "Int" [.word n]
  | .str s => .apply "String" [.text s]
  | .bool b => .apply "Bool" [.bool b]

/-- An expression of the given kind. -/
def exprDump (kind : Dump) (span : Span) : Dump :=
  .record "Expr" [("kind", kind), ("span", span.dump)]

/-- A statement of the given kind. -/
def stmtDump (kind : Dump) (span : Span) : Dump :=
  .record "Stmt" [("kind", kind), ("span", span.dump)]

/-- A closure. -/
def closureDump (params : List Dump) (results : Option (List Dump)) (body : Dump)
    (captured : List String) : Dump :=
  .apply "Closure"
    [.record "Closure"
      [("params", .items params), ("return_type", .option (results.map .items)), ("body", body),
       ("captured_vars", .items (captured.map .text))]]

mutual

/-- The structure of an expression. -/
def Expr.dump : Expr → Dump
  | .literal v s => exprDump (.apply "Literal" [v.dump]) s
  | .name x s => exprDump (.apply "Identifier" [.text x]) s
  | .unary op e s => exprDump (.record "Unary" [("op", .atom op.label), ("expr", e.dump)]) s
  | .binary op l r s =>
      exprDump (.record "Binary" [("op", .atom op.label), ("lhs", l.dump), ("rhs", r.dump)]) s
  | .seq es s =>
      exprDump
        (.record "Array" [("elements", .items (Expr.dumpList es)), ("element_type", .option none)])
        s
  | .emptySeq t s =>
      exprDump (.record "Array" [("elements", .items []), ("element_type", .option (some t.dump))]) s
  | .index e i s => exprDump (.record "Index" [("array", e.dump), ("index", i.dump)]) s
  | .call f as s =>
      exprDump (.record "Call" [("func", f.dump), ("args", .items (Expr.dumpList as))]) s
  | .lambda ps b cs s =>
      exprDump (closureDump (ps.map OpenParam.dump) none (.apply "Expr" [b.dump]) cs) s
  | .block ps rs b cs s =>
      exprDump
        (closureDump (ps.map Param.dump) (some (rs.map TypeExpr.dump))
          (.apply "Block" [.items (Stmt.dumpList b)]) cs)
        s
  | .error s => exprDump (.atom "Error") s
termination_by structural e => e

/-- The structures of several expressions. -/
def Expr.dumpList : List Expr → List Dump
  | [] => []
  | e :: es => e.dump :: Expr.dumpList es
termination_by structural es => es

/-- The structure of a statement. -/
def Stmt.dump : Stmt → Dump
  | .declare c x t e s =>
      stmtDump
        (.record "VariableDecl"
          [("name", .text x), ("type_hint", .option (t.map TypeExpr.dump)), ("value", e.dump),
           ("is_const", .bool c)])
        s
  | .assign x e s => stmtDump (.record "Assignment" [("target", .text x), ("value", e.dump)]) s
  | .ifThen c b s =>
      stmtDump
        (.record "If"
          [("condition", c.dump), ("then_block", .items (Stmt.dumpList b)),
           ("else_block", .option none)])
        s
  | .ifElse c b d s =>
      stmtDump
        (.record "If"
          [("condition", c.dump), ("then_block", .items (Stmt.dumpList b)),
           ("else_block", .option (some (.items (Stmt.dumpList d))))])
        s
  | .while c b s =>
      stmtDump (.record "While" [("condition", c.dump), ("body", .items (Stmt.dumpList b))]) s
  | .return es s => stmtDump (.record "Return" [("values", .items (Expr.dumpList es))]) s
  | .expr e s => stmtDump (.apply "Expr" [e.dump]) s
  | .error s => stmtDump (.atom "Error") s
termination_by structural st => st

/-- The structures of several statements. -/
def Stmt.dumpList : List Stmt → List Dump
  | [] => []
  | s :: ss => s.dump :: Stmt.dumpList ss
termination_by structural ss => ss

end

/-- The structure of a function definition. -/
def Function.dump (f : Function) : Dump :=
  .record "FunctionDef"
    [("name", .text f.name), ("params", .items (f.params.map Param.dump)),
     ("return_type", .items (f.results.map TypeExpr.dump)), ("body", .items (Stmt.dumpList f.body)),
     ("span", f.span.dump)]

/-- The structure of a program. -/
def Program.dump (p : Program) : Dump :=
  .record "Program" [("functions", .items (p.functions.map Function.dump))]

end Rivulet.Source
