import Rivulet.Ir.Tree

/-!
# Printed intermediate code

Intermediate code as text. Blocks are indented by two spaces per level, a local is its name and its
number, an allocation ends with its site, and an exclamation mark behind a subscript says that it is
not checked.
-/

set_option autoImplicit false

namespace Rivulet.Ir

/-- The blanks in front of a line at the given depth. -/
def margin (depth : Nat) : String := "".pushn ' ' (2 * depth)

/-- A line at the given depth. -/
def line (depth : Nat) (text : String) : String := margin depth ++ text ++ "\n"

/-- Texts with commas between them. -/
def commas (texts : List String) : String := ", ".intercalate texts

/-- A constant. -/
def Const.render : Const → String
  | .int n => toString n.toInt
  | .bool b => if b then "true" else "false"
  | .str s => Text.quote s

/-- The mark behind a subscript. -/
def Bounds.render : Bounds → String
  | .checked => ""
  | .elided => "!"

mutual

/-- An expression in a line at the given depth. -/
def Expr.render (ctx : Context) (depth : Nat) : Expr → String
  | .const c _ => c.render
  | .local x _ => ctx.render x
  | .function f _ => f
  | .builtin b _ => b.name
  | .unary op e _ => op.symbol ++ e.render ctx depth
  | .binary op l r _ _ _ =>
      "(" ++ l.render ctx depth ++ " " ++ op.symbol ++ " " ++ r.render ctx depth ++ ")"
  | .call f as _ => f.render ctx depth ++ "(" ++ commas (Expr.renderList ctx depth as) ++ ")"
  | .index e p b _ => e.render ctx depth ++ "[" ++ p.render ctx depth ++ "]" ++ b.render
  | .len e _ => "len(" ++ e.render ctx depth ++ ")"
  | .alloc t e s _ => "alloc [" ++ t.render ++ "; " ++ e.render ctx depth ++ "] " ++ s.render
  | .slice es s _ => "[" ++ commas (Expr.renderList ctx depth es) ++ "] " ++ s.render
  | .closure ps _ cs b _ =>
      "closure(" ++ commas (ps.map ctx.render) ++ ") [" ++ commas (cs.map ctx.render) ++ "] \x7b\n"
        ++ Stmt.renderList ctx (depth + 1) b ++ margin depth ++ "\x7d"
termination_by structural e => e

/-- Several expressions in a line at the given depth. -/
def Expr.renderList (ctx : Context) (depth : Nat) : List Expr → List String
  | [] => []
  | e :: es => e.render ctx depth :: Expr.renderList ctx depth es
termination_by structural es => es

/-- The lines of a statement at the given depth. -/
def Stmt.render (ctx : Context) (depth : Nat) : Stmt → String
  | .bind x e => line depth ("let " ++ ctx.render x ++ " = " ++ e.render ctx depth)
  | .assign x e => line depth (ctx.render x ++ " = " ++ e.render ctx depth)
  | .store s p v b =>
      line depth
        (s.render ctx depth ++ "[" ++ p.render ctx depth ++ "]" ++ b.render ++ " = "
          ++ v.render ctx depth)
  | .expr e => line depth (e.render ctx depth)
  | .return [] => line depth "return"
  | .return (e :: es) => line depth ("return " ++ commas (Expr.renderList ctx depth (e :: es)))
  | .if c t [] =>
      line depth ("if " ++ c.render ctx depth ++ " \x7b") ++ Stmt.renderList ctx (depth + 1) t
        ++ line depth "\x7d"
  | .if c t (s :: ss) =>
      line depth ("if " ++ c.render ctx depth ++ " \x7b") ++ Stmt.renderList ctx (depth + 1) t
        ++ line depth "\x7d else \x7b" ++ Stmt.renderList ctx (depth + 1) (s :: ss)
        ++ line depth "\x7d"
  | .while c b =>
      line depth ("while " ++ c.render ctx depth ++ " \x7b") ++ Stmt.renderList ctx (depth + 1) b
        ++ line depth "\x7d"
  | .break => line depth "break"
  | .for x a z b =>
      line depth
          ("for " ++ ctx.render x ++ " in " ++ a.render ctx depth ++ ".." ++ z.render ctx depth
            ++ " \x7b")
        ++ Stmt.renderList ctx (depth + 1) b ++ line depth "\x7d"
termination_by structural s => s

/-- The lines of a block at the given depth. -/
def Stmt.renderList (ctx : Context) (depth : Nat) : List Stmt → String
  | [] => ""
  | s :: ss => s.render ctx depth ++ Stmt.renderList ctx depth ss
termination_by structural ss => ss

end

/-- The lines of a function. -/
def Function.render (f : Function) : String :=
  let params := f.params.map fun x => f.ctx.render x ++ ": " ++ (f.ctx.typeOf x).render
  line 0
      ("fn " ++ f.name ++ "(" ++ commas params ++ ") -> (" ++ commas (f.results.map Ty.render)
        ++ ") \x7b")
    ++ Stmt.renderList f.ctx 1 f.body ++ line 0 "\x7d"

/-- A module: its functions with an empty line between them. -/
def Module.render (m : Module) : String := "\n".intercalate (m.functions.map Function.render)

end Rivulet.Ir
