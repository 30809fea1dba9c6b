import Rivulet.Ir.Tree

/-!
# Facts about maps

Before maps are lowered, each of them gets its facts: the sequence is only read by the element loop,
the callable escapes as closures do, and the result gets an allocation site of its own. Maps inside
the operands of a map get the lower numbers.

Main definition: `Module.withMapFacts`.
-/

set_option autoImplicit false

namespace Rivulet.Ir

/-- The handing out of allocation sites. -/
abbrev SiteM := StateM Context

/-- The facts of a map, with a new allocation site. -/
def freshMapFacts : SiteM MapFacts := do
  let (s, ctx) := (← get).freshSite
  set ctx
  pure { result := s }

mutual

/-- An expression with facts on every map. -/
def Expr.withMapFacts : Expr → SiteM Expr
  | .const c i => pure (.const c i)
  | .local x i => pure (.local x i)
  | .function f i => pure (.function f i)
  | .builtin b i => pure (.builtin b i)
  | .unary op e i => do
      let e ← e.withMapFacts
      pure (.unary op e i)
  | .binary op l r t facts i => do
      let l ← l.withMapFacts
      let r ← r.withMapFacts
      if op = .map then
        let facts ← freshMapFacts
        pure (.binary op l r t (some facts) i)
      else pure (.binary op l r t facts i)
  | .call f as i => do
      let f ← f.withMapFacts
      let as ← Expr.withMapFactsList as
      pure (.call f as i)
  | .index s p b i => do
      let s ← s.withMapFacts
      let p ← p.withMapFacts
      pure (.index s p b i)
  | .len e i => do
      let e ← e.withMapFacts
      pure (.len e i)
  | .alloc t e s i => do
      let e ← e.withMapFacts
      pure (.alloc t e s i)
  | .slice es s i => do
      let es ← Expr.withMapFactsList es
      pure (.slice es s i)
  | .closure ps rs cs b i => do
      let b ← Stmt.withMapFactsList b
      pure (.closure ps rs cs b i)
termination_by structural e => e

/-- Expressions with facts on every map. -/
def Expr.withMapFactsList : List Expr → SiteM (List Expr)
  | [] => pure []
  | e :: es => do
      let e ← e.withMapFacts
      let es ← Expr.withMapFactsList es
      pure (e :: es)
termination_by structural es => es

/-- A statement with facts on every map. -/
def Stmt.withMapFacts : Stmt → SiteM Stmt
  | .bind x e => do
      let e ← e.withMapFacts
      pure (.bind x e)
  | .assign x e => do
      let e ← e.withMapFacts
      pure (.assign x e)
  | .store s p v b => do
      let s ← s.withMapFacts
      let p ← p.withMapFacts
      let v ← v.withMapFacts
      pure (.store s p v b)
  | .expr e => do
      let e ← e.withMapFacts
      pure (.expr e)
  | .return es => do
      let es ← Expr.withMapFactsList es
      pure (.return es)
  | .if c t e => do
      let c ← c.withMapFacts
      let t ← Stmt.withMapFactsList t
      let e ← Stmt.withMapFactsList e
      pure (.if c t e)
  | .while c b => do
      let c ← c.withMapFacts
      let b ← Stmt.withMapFactsList b
      pure (.while c b)
  | .break => pure .break
  | .for x a z b => do
      let a ← a.withMapFacts
      let z ← z.withMapFacts
      let b ← Stmt.withMapFactsList b
      pure (.for x a z b)
termination_by structural s => s

/-- A block with facts on every map. -/
def Stmt.withMapFactsList : List Stmt → SiteM (List Stmt)
  | [] => pure []
  | s :: ss => do
      let s ← s.withMapFacts
      let ss ← Stmt.withMapFactsList ss
      pure (s :: ss)
termination_by structural ss => ss

end

/-- A function with facts on every map. -/
def Function.withMapFacts (f : Function) : Function :=
  let (b, ctx) := (Stmt.withMapFactsList f.body).run f.ctx
  { f with body := b, ctx := ctx }

/-- A module with facts on every map. -/
def Module.withMapFacts (m : Module) : Module := ⟨m.functions.map Function.withMapFacts⟩

end Rivulet.Ir
