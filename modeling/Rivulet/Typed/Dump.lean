import Rivulet.Typed.Tree

/-!
# Dumps of typed programs

The structure of every node of a typed program.
-/

set_option autoImplicit false

namespace Rivulet.Typed

open Text (Dump)

/-- The structure of a parameter. -/
def Param.dump (p : Param) : Dump :=
  .record "TParam" [("name", .text p.name), ("ty", p.ty.dump), ("span", p.span.dump)]

/-- An expression of the given kind. -/
def exprDump (kind : Dump) (i : Info) : Dump :=
  .record "TExpr" [("kind", kind), ("ty", i.ty.dump), ("span", i.span.dump)]

/-- A statement of the given kind. -/
def stmtDump (kind : Dump) (span : Span) : Dump :=
  .record "TStmt" [("kind", kind), ("span", span.dump)]

mutual

/-- The structure of an expression. -/
def Expr.dump : Expr → Dump
  | .int n i => exprDump (.apply "Int" [.word n]) i
  | .bool b i => exprDump (.apply "Bool" [.bool b]) i
  | .str s i => exprDump (.apply "Str" [.text s]) i
  | .local x i => exprDump (.apply "Local" [.text x]) i
  | .function x i => exprDump (.apply "Function" [.text x]) i
  | .builtin b i => exprDump (.apply "Builtin" [.atom b.label]) i
  | .unary op e i => exprDump (.record "Unary" [("op", .atom op.label), ("expr", e.dump)]) i
  | .binary op l r i =>
      exprDump (.record "Binary" [("op", .atom op.label), ("lhs", l.dump), ("rhs", r.dump)]) i
  | .seq es i => exprDump (.apply "Seq" [.items (Expr.dumpList es)]) i
  | .index e p i => exprDump (.record "Index" [("seq", e.dump), ("index", p.dump)]) i
  | .call f as i =>
      exprDump (.record "Call" [("callee", f.dump), ("args", .items (Expr.dumpList as))]) i
  | .closure ps rs b cs i =>
      exprDump
        (.apply "Closure"
          [.record "TClosure"
            [("params", .items (ps.map Param.dump)), ("results", .items (rs.map Ty.dump)),
             ("body", .items (Stmt.dumpList b)), ("captures", .items (cs.map .text))]])
        i
  | .error i => exprDump (.atom "Error") i
termination_by structural e => e

/-- The structures of several expressions. -/
def Expr.dumpList : List Expr → List Dump
  | [] => []
  | e :: es => e.dump :: Expr.dumpList es
termination_by structural es => es

/-- The structure of a statement. -/
def Stmt.dump : Stmt → Dump
  | .declare c x t e s =>
      stmtDump
        (.record "Let"
          [("name", .text x), ("ty", t.dump), ("value", e.dump), ("is_const", .bool c)])
        s
  | .assign x e s => stmtDump (.record "Assign" [("name", .text x), ("value", e.dump)]) s
  | .if c t e s =>
      stmtDump
        (.record "If"
          [("condition", c.dump), ("then_block", .items (Stmt.dumpList t)),
           ("else_block", .items (Stmt.dumpList e))])
        s
  | .while c b s =>
      stmtDump (.record "While" [("condition", c.dump), ("body", .items (Stmt.dumpList b))]) s
  | .return es s => stmtDump (.apply "Return" [.items (Expr.dumpList es)]) s
  | .expr e s => stmtDump (.apply "Expr" [e.dump]) s
termination_by structural st => st

/-- The structures of several statements. -/
def Stmt.dumpList : List Stmt → List Dump
  | [] => []
  | s :: ss => s.dump :: Stmt.dumpList ss
termination_by structural ss => ss

end

/-- The structure of a function definition. -/
def Function.dump (f : Function) : Dump :=
  .record "TFunction"
    [("name", .text f.name), ("params", .items (f.params.map Param.dump)),
     ("results", .items (f.results.map Ty.dump)), ("body", .items (Stmt.dumpList f.body)),
     ("span", f.span.dump)]

/-- The structure of a program. -/
def Program.dump (p : Program) : Dump :=
  .record "TProgram" [("functions", .items (p.functions.map Function.dump))]

end Rivulet.Typed
