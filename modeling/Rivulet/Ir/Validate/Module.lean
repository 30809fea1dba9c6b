import Rivulet.Ir.Validate.Rule

/-!
# Validation of intermediate code

The second type checker. It derives the type of every expression from its parts, whoever made the
code and whatever types are written on it, and gives back the code with the derived types written on
it. Mistakes are reported under the codes that they have in programs.

Main definition: `Module.validate`.
-/

set_option autoImplicit false

namespace Rivulet.Ir.Validate

/-- What is known in a function. -/
structure Scene where
  ctx : Context
  signatures : Signatures

mutual

/-- An expression with its derived type. -/
def expr (sc : Scene) : Expr → Valid Expr
  | .const c i => pure (.const c ⟨constTy c, i.span⟩)
  | .local x i => pure (.local x ⟨sc.ctx.typeOf x, i.span⟩)
  | .function f i => do
      let t ← functionTy sc.signatures f i.span
      pure (.function f ⟨t, i.span⟩)
  | .builtin b i => do
      let t ← builtinTy b i.span
      pure (.builtin b ⟨t, i.span⟩)
  | .unary op e i => do
      let e ← expr sc e
      let t ← unaryTy op e
      pure (.unary op e ⟨t, i.span⟩)
  | .binary op l r common facts i => do
      let l ← expr sc l
      let r ← expr sc r
      let t ← binaryTy op l r i.span
      pure (.binary op l r (operandTy op l t common) facts ⟨t, i.span⟩)
  | .call (.builtin .println j) as i => do
      let as ← exprs sc as
      let t ← printTy as i.span
      pure (.call (.builtin .println ⟨.func (as.map Expr.ty) [], j.span⟩) as ⟨t, i.span⟩)
  | .call f as i => do
      let as ← exprs sc as
      let f ← expr sc f
      let t ← callTy f as i.span
      pure (.call f as ⟨t, i.span⟩)
  | .index s p b i => do
      let s ← expr sc s
      let p ← expr sc p
      let t ← indexTy s p
      pure (.index s p b ⟨t, i.span⟩)
  | .len e i => do
      let e ← expr sc e
      let t ← lenTy e
      pure (.len e ⟨t, i.span⟩)
  | .alloc element n s i => do
      let n ← expr sc n
      let t ← allocTy element n
      pure (.alloc element n s ⟨t, i.span⟩)
  | .slice es s i => do
      let es ← exprs sc es
      let t ← sliceTy i.ty es i.span
      pure (.slice es s ⟨t, i.span⟩)
  | .closure ps rs cs b i => do
      let b ← block sc rs b
      pure (.closure ps rs cs b ⟨.func (ps.map sc.ctx.typeOf) rs, i.span⟩)
termination_by structural e => e

/-- Expressions with their derived types. -/
def exprs (sc : Scene) : List Expr → Valid (List Expr)
  | [] => pure []
  | e :: es => do
      let e ← expr sc e
      let es ← exprs sc es
      pure (e :: es)
termination_by structural es => es

/-- A statement with derived types, in a function or closure with the given results. -/
def stmt (sc : Scene) (results : List Ty) : Stmt → Valid Stmt
  | .bind x e => do
      let e ← expr sc e
      bound sc.ctx x e
      pure (.bind x e)
  | .assign x e => do
      let e ← expr sc e
      bound sc.ctx x e
      pure (.assign x e)
  | .store s p v b => do
      let s ← expr sc s
      let p ← expr sc p
      let v ← expr sc v
      store s p v
      pure (.store s p v b)
  | .expr e => do
      let e ← expr sc e
      pure (.expr e)
  | .return es => do
      let es ← exprs sc es
      return_ results es
      pure (.return es)
  | .if c t e => do
      let c ← expr sc c
      condition c
      let t ← block sc results t
      let e ← block sc results e
      pure (.if c t e)
  | .while c b => do
      let c ← expr sc c
      condition c
      let b ← block sc results b
      pure (.while c b)
  | .break => pure .break
  | .for x a z b => do
      let a ← expr sc a
      let z ← expr sc z
      range sc.ctx x a z
      let b ← block sc results b
      pure (.for x a z b)
termination_by structural s => s

/-- A block with derived types. -/
def block (sc : Scene) (results : List Ty) : List Stmt → Valid (List Stmt)
  | [] => pure []
  | s :: ss => do
      let s ← stmt sc results s
      let ss ← block sc results ss
      pure (s :: ss)
termination_by structural ss => ss

end

/-- The functions of a module; of two definitions of one name the later stands first. -/
def signatures (m : Module) : Signatures :=
  (m.functions.map fun f => (f.name, f.signature)).reverse

end Validate

/-- A function with derived types. -/
def Function.validate (sigs : Validate.Signatures) (f : Function) : Validate.Valid Function := do
  let b ← Validate.block ⟨f.ctx, sigs⟩ f.results f.body
  pure { f with body := b }

/-- A module with derived types, and everything that is wrong with it. -/
def Module.validate (m : Module) : Validate.Valid Module := do
  let fs ← m.functions.mapM (Function.validate (Validate.signatures m))
  pure ⟨fs⟩

end Rivulet.Ir
