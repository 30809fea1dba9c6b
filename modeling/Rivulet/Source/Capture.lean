import Rivulet.Ascending
import Rivulet.Source.Tree

/-!
# What closures capture

A closure shares the locals of its surroundings that its body uses. A walk over the body of every
function finds them, after parsing, and writes them into the closures.

The walk over a body knows the scopes that are open in the body and, as `outer`, what was visible
where the body was written. A used name that is in `outer` and not in the scopes of the body is
captured. A closure is walked over on its own: it starts with its parameters as the only scope, and
everything that is visible around it is its `outer`. What it captures counts as used where it stands,
so that a name from further out is captured by every closure on the way. Names that are in no scope
mean functions or builtins and are captured by nobody.
-/

set_option autoImplicit false

namespace Rivulet.Source

/-- The lexical scopes visible at a point in a body, the innermost first: of each, the names declared
in it. -/
structure Scopes where
  frames : List (List String)

namespace Scopes

def contains (scopes : Scopes) (x : String) : Bool := scopes.frames.any fun frame => frame.contains x

/-- Declare a name in the innermost scope. -/
def declare (x : String) : Scopes → Scopes
  | ⟨[]⟩ => ⟨[]⟩
  | ⟨frame :: frames⟩ => ⟨(x :: frame) :: frames⟩

/-- Open a scope without names. -/
def push (scopes : Scopes) : Scopes := ⟨[] :: scopes.frames⟩

/-- Close the innermost scope. -/
def pop (scopes : Scopes) : Scopes := ⟨scopes.frames.tail⟩

/-- What is visible in scopes that lie within others. -/
def within (scopes outer : Scopes) : Scopes := ⟨scopes.frames ++ outer.frames⟩

end Scopes

/-- The state of the walk over a body: the scopes that are open in the body, and the names that it
has captured so far, in ascending order. -/
structure Walk where
  scopes : Scopes
  captured : List String

/-- A part of the walk over a body. -/
abbrev Walker := StateM Walk

namespace Walker

variable {α : Type}

/-- Use a name. -/
def useName (outer : Scopes) (x : String) : Walker Unit :=
  modify fun w =>
    if !w.scopes.contains x && outer.contains x then
      { w with captured := Ascending.insert x w.captured }
    else w

/-- Bring a name into scope. -/
def declare (x : String) : Walker Unit := modify fun w => { w with scopes := w.scopes.declare x }

/-- Walk over a block, in a scope of its own. -/
def inScope (block : Walker α) : Walker α := do
  modify fun w => { w with scopes := w.scopes.push }
  let a ← block
  modify fun w => { w with scopes := w.scopes.pop }
  pure a

/-- Walk over the body of a closure with the parameters `params`, on its own, given what is visible
around it. The result comes with the captures of the closure. -/
def inClosure (outer : Scopes) (params : List String) (body : Scopes → Walker α) :
    Walker (α × List String) := do
  let around := (← get).scopes.within outer
  let (a, inner) := (body around).run ⟨⟨[params]⟩, []⟩
  inner.captured.forM (useName outer)
  pure (a, inner.captured)

end Walker

open Walker

mutual

/-- Write the captures into the closures of an expression. -/
def Expr.walk (outer : Scopes) : Expr → Walker Expr
  | .literal v s => pure (.literal v s)
  | .name x s => do
      useName outer x
      pure (.name x s)
  | .unary op e s => do
      let e ← e.walk outer
      pure (.unary op e s)
  | .binary op l r s => do
      let l ← l.walk outer
      let r ← r.walk outer
      pure (.binary op l r s)
  | .seq es s => do
      let es ← Expr.walkList outer es
      pure (.seq es s)
  | .emptySeq t s => pure (.emptySeq t s)
  | .index e i s => do
      let e ← e.walk outer
      let i ← i.walk outer
      pure (.index e i s)
  | .call f as s => do
      let f ← f.walk outer
      let as ← Expr.walkList outer as
      pure (.call f as s)
  | .lambda ps b _ s => do
      let (b, cs) ← inClosure outer (ps.map OpenParam.name) fun around => b.walk around
      pure (.lambda ps b cs s)
  | .block ps rs b _ s => do
      let (b, cs) ← inClosure outer (ps.map Param.name) fun around =>
        inScope (Stmt.walkList around b)
      pure (.block ps rs b cs s)
  | .error s => pure (.error s)
termination_by structural e => e

/-- Write the captures into the closures of several expressions. -/
def Expr.walkList (outer : Scopes) : List Expr → Walker (List Expr)
  | [] => pure []
  | e :: es => do
      let e ← e.walk outer
      let es ← Expr.walkList outer es
      pure (e :: es)
termination_by structural es => es

/-- Write the captures into the closures of a statement. Assigning to a name uses it, and a declared
name comes into scope after its value. -/
def Stmt.walk (outer : Scopes) : Stmt → Walker Stmt
  | .declare c x t e s => do
      let e ← e.walk outer
      declare x
      pure (.declare c x t e s)
  | .assign x e s => do
      useName outer x
      let e ← e.walk outer
      pure (.assign x e s)
  | .ifThen c b s => do
      let c ← c.walk outer
      let b ← inScope (Stmt.walkList outer b)
      pure (.ifThen c b s)
  | .ifElse c b d s => do
      let c ← c.walk outer
      let b ← inScope (Stmt.walkList outer b)
      let d ← inScope (Stmt.walkList outer d)
      pure (.ifElse c b d s)
  | .while c b s => do
      let c ← c.walk outer
      let b ← inScope (Stmt.walkList outer b)
      pure (.while c b s)
  | .return es s => do
      let es ← Expr.walkList outer es
      pure (.return es s)
  | .expr e s => do
      let e ← e.walk outer
      pure (.expr e s)
  | .error s => pure (.error s)
termination_by structural s => s

/-- Write the captures into the closures of several statements. -/
def Stmt.walkList (outer : Scopes) : List Stmt → Walker (List Stmt)
  | [] => pure []
  | s :: ss => do
      let s ← s.walk outer
      let ss ← Stmt.walkList outer ss
      pure (s :: ss)
termination_by structural ss => ss

end

/-- Write the captures into the closures of a function. Its parameters are in scope, and there is
nothing around it. -/
def Function.resolve (f : Function) : Function :=
  let walked := (inScope (Stmt.walkList ⟨[]⟩ f.body)).run ⟨⟨[f.params.map Param.name]⟩, []⟩
  { f with body := walked.1 }

/-- Write the captures into the closures of a program. -/
def Program.resolve (p : Program) : Program := ⟨p.functions.map Function.resolve⟩

end Rivulet.Source
