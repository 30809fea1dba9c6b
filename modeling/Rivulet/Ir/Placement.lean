import Rivulet.Ascending
import Rivulet.Ir.Tree

/-!
# Placement of allocations

Which allocations of a function may live in its frame, and which must go to the heap. A slice has to
go to the heap if something may hold it after the function has returned: if an alias of it is
returned, passed to a call, stored into a sequence, captured by a closure or assigned to a captured
local. The analysis does not follow the order of statements.

* `Stmt.bindings` lists which value each local is bound to, anywhere in a piece of code;
* `Aliases.close` finds from them which allocation sites each local may refer to;
* `Stmt.escaping` lists the expressions whose value may be held;
* `Function.placements` puts the answers together.

An element that is read out of a sequence needs no alias of its own, because whatever is stored into
a sequence is on the heap already.
-/

set_option autoImplicit false

namespace Rivulet.Ir

/-! ## Bindings -/

/-- A local and a value that it is bound to. -/
structure Binding where
  target : LocalId
  value : Expr

mutual

/-- The bindings in an expression, which stand in the bodies of its closures. -/
def Expr.bindings : Expr → List Binding
  | .const _ _ | .local _ _ | .function _ _ | .builtin _ _ => []
  | .unary _ e _ | .len e _ | .alloc _ e _ _ => e.bindings
  | .binary _ l r _ _ _ => l.bindings ++ r.bindings
  | .call f as _ => f.bindings ++ Expr.bindingsList as
  | .index s p _ _ => s.bindings ++ p.bindings
  | .slice es _ _ => Expr.bindingsList es
  | .closure _ _ _ b _ => Stmt.bindingsList b
termination_by structural e => e

/-- The bindings in several expressions. -/
def Expr.bindingsList : List Expr → List Binding
  | [] => []
  | e :: es => e.bindings ++ Expr.bindingsList es
termination_by structural es => es

/-- The bindings in a statement. -/
def Stmt.bindings : Stmt → List Binding
  | .bind x e | .assign x e => ⟨x, e⟩ :: e.bindings
  | .store s p v _ => s.bindings ++ p.bindings ++ v.bindings
  | .expr e => e.bindings
  | .return es => Expr.bindingsList es
  | .if c t e => c.bindings ++ Stmt.bindingsList t ++ Stmt.bindingsList e
  | .while c b => c.bindings ++ Stmt.bindingsList b
  | .break => []
  | .for _ a z b => a.bindings ++ z.bindings ++ Stmt.bindingsList b
termination_by structural s => s

/-- The bindings in a block. -/
def Stmt.bindingsList : List Stmt → List Binding
  | [] => []
  | s :: ss => s.bindings ++ Stmt.bindingsList ss
termination_by structural ss => ss

end

/-! ## Aliases -/

/-- Pairs of a local and an allocation site that it may refer to. -/
abbrev Aliases := List (LocalId × Site)

namespace Aliases

/-- The sites that a local may refer to. -/
def ofLocal (al : Aliases) (x : LocalId) : List Site :=
  al.filterMap fun (y, s) => if y = x then some s else none

/-- The sites that the value of an expression may be. -/
def ofExpr (al : Aliases) : Expr → List Site
  | .alloc _ _ s _ | .slice _ s _ => [s]
  | .local x _ => al.ofLocal x
  | _ => []

/-- Add pairs that are not there yet. -/
def addNew (al : Aliases) (x : LocalId) (sites : List Site) : Aliases :=
  sites.foldl (fun al s => if (x, s) ∈ al then al else (x, s) :: al) al

/-- One round over all bindings. -/
def step (bs : List Binding) (al : Aliases) : Aliases :=
  bs.foldl (fun al b => al.addNew b.target (al.ofExpr b.value)) al

/-- Rounds until nothing changes, at most `n` of them. -/
def closeUpTo (bs : List Binding) : Nat → Aliases → Aliases
  | 0, al => al
  | n + 1, al =>
      let next := step bs al
      if next.length = al.length then al else closeUpTo bs n next

/-- The aliases that follow from bindings. A chain of copies is no longer than the list of bindings,
so as many rounds and one more are enough. -/
def close (bs : List Binding) : Aliases := closeUpTo bs (bs.length + 1) []

end Aliases

/-! ## Escapes -/

/-- The locals that closures capture. -/
def captured (parts : List Expr) : List LocalId :=
  parts.flatMap fun
    | .closure _ _ cs _ _ => cs
    | _ => []

mutual

/-- The expressions in an expression whose value may be held after the function has returned: the
arguments of calls other than `println`, the elements of slices, and what escapes in closures. -/
def Expr.escaping (held : List LocalId) : Expr → List Expr
  | .const _ _ | .local _ _ | .function _ _ | .builtin _ _ => []
  | .unary _ e _ | .len e _ | .alloc _ e _ _ => e.escaping held
  | .binary _ l r _ _ _ => l.escaping held ++ r.escaping held
  | .call f as _ =>
      let args :=
        match f with
        | .builtin .println _ => []
        | _ => as
      args ++ f.escaping held ++ Expr.escapingList held as
  | .index s p _ _ => s.escaping held ++ p.escaping held
  | .slice es _ _ => es ++ Expr.escapingList held es
  | .closure _ _ _ b _ => Stmt.escapingList held b
termination_by structural e => e

/-- The escaping expressions in several expressions. -/
def Expr.escapingList (held : List LocalId) : List Expr → List Expr
  | [] => []
  | e :: es => e.escaping held ++ Expr.escapingList held es
termination_by structural es => es

/-- The expressions in a statement whose value may be held, where `held` are the captured locals:
what is returned, stored, or bound to a captured local. -/
def Stmt.escaping (held : List LocalId) : Stmt → List Expr
  | .bind x e | .assign x e => (if x ∈ held then [e] else []) ++ e.escaping held
  | .store s p v _ => v :: (s.escaping held ++ p.escaping held ++ v.escaping held)
  | .expr e => e.escaping held
  | .return es => es ++ Expr.escapingList held es
  | .if c t e => c.escaping held ++ Stmt.escapingList held t ++ Stmt.escapingList held e
  | .while c b => c.escaping held ++ Stmt.escapingList held b
  | .break => []
  | .for _ a z b => a.escaping held ++ z.escaping held ++ Stmt.escapingList held b
termination_by structural s => s

/-- The escaping expressions in a block. -/
def Stmt.escapingList (held : List LocalId) : List Stmt → List Expr
  | [] => []
  | s :: ss => s.escaping held ++ Stmt.escapingList held ss
termination_by structural ss => ss

end

/-! ## Placements -/

/-- Where a slice lives. -/
inductive Placement where
  | stack
  | heap
deriving DecidableEq

/-- The placement of every allocation site of a function, in ascending order. -/
abbrev Placements := List (Site × Placement)

/-- The sites that go to the heap. -/
def Placements.heap (p : Placements) : List Site :=
  (p.filter fun (_, p) => p = .heap).map Prod.fst

/-- The sites whose slices may be held after the function has returned. -/
def Function.escapingSites (f : Function) : List Site :=
  let held := captured f.parts
  let al := Aliases.close (Stmt.bindingsList f.body)
  (Stmt.escapingList held f.body).flatMap al.ofExpr ++ held.flatMap al.ofLocal

/-- Decide for every allocation site of a function. -/
def Function.placements (f : Function) : Placements :=
  let heap := f.escapingSites
  (Ascending.ofList f.sites).map fun s => (s, if s ∈ heap then .heap else .stack)

end Rivulet.Ir
