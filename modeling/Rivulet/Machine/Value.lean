import Rivulet.Ir.Tree

/-!
# Values

The values of a running program. Sequences are shared and can be overwritten, so a sequence value is
an address; what it holds is kept in the store. A closure value carries its code and the cells of the
locals it captured. It also has an identity, by which closures are compared.

Text and equality of values look through addresses. Both are written in two layers: one follows a
value itself and is told how to treat an address, the other follows a bounded number of addresses.
Sequences that programs build never contain themselves, so the number of sequences in the store is
bound enough.
-/

set_option autoImplicit false

namespace Rivulet.Machine

open Ir

/-- The address of a cell, which holds the value of a local. -/
structure CellAddr where
  index : Nat
deriving DecidableEq, Inhabited

/-- The address of a sequence. -/
structure SliceAddr where
  index : Nat
deriving DecidableEq, Inhabited

/-- A value that can be called. -/
inductive Callable where
  | function (name : String)
  | builtin (builtin : Builtin)
  | closure (identity : Nat) (params : List LocalId) (body : List Stmt)
      (env : List (LocalId × CellAddr))

/-- A value. -/
inductive Value where
  | unit
  | int (value : Int64)
  | bool (value : Bool)
  | str (value : String)
  | slice (addr : SliceAddr)
  | func (callable : Callable)
  | tuple (elements : List Value)

instance : Inhabited Value := ⟨.unit⟩

/-- Whether two callables are the same: functions and builtins by name, closures by identity. -/
def Callable.same : Callable → Callable → Bool
  | .function f, .function g => f == g
  | .builtin b, .builtin c => b == c
  | .closure i _ _ _, .closure j _ _ _ => i == j
  | _, _ => false

/-- The text of a callable. -/
def Callable.render : Callable → String
  | .function f => "<fn " ++ f ++ ">"
  | .builtin b => "<builtin " ++ b.name ++ ">"
  | .closure _ _ _ _ => "<closure>"

namespace Value

/-! ## Text -/

/-- The text of a value inside of another one, given its own text: a string is quoted there. -/
def nested (text : String) : Value → String
  | .str s => Text.quote s
  | _ => text

mutual

/-- The text of a value, given the text of sequences. -/
def renderWith (slice : SliceAddr → String) : Value → String
  | .unit => "()"
  | .int n => toString n.toInt
  | .bool b => if b then "true" else "false"
  | .str s => s
  | .slice a => slice a
  | .func c => c.render
  | .tuple vs => "(" ++ ", ".intercalate (renderListWith slice vs) ++ ")"
termination_by structural v => v

/-- The texts of values inside of another one. -/
def renderListWith (slice : SliceAddr → String) : List Value → List String
  | [] => []
  | v :: vs => nested (renderWith slice v) v :: renderListWith slice vs
termination_by structural vs => vs

end

/-- The text of a value, following at most `depth` addresses. -/
def renderUpTo (items : SliceAddr → List Value) : Nat → Value → String
  | 0 => renderWith fun _ => "[]"
  | depth + 1 =>
      renderWith fun a =>
        "[" ++ ", ".intercalate ((items a).map fun v => nested (renderUpTo items depth v) v) ++ "]"

/-! ## Equality -/

mutual

/-- Whether two values are equal, given when sequences are. -/
def sameWith (slice : SliceAddr → SliceAddr → Bool) : Value → Value → Bool
  | .unit, .unit => true
  | .int a, .int b => a == b
  | .bool a, .bool b => a == b
  | .str a, .str b => a == b
  | .slice a, .slice b => slice a b
  | .func c, .func d => c.same d
  | .tuple vs, .tuple ws => sameListWith slice vs ws
  | _, _ => false
termination_by structural v => v

/-- Whether two lists of values are equal. -/
def sameListWith (slice : SliceAddr → SliceAddr → Bool) : List Value → List Value → Bool
  | [], [] => true
  | v :: vs, w :: ws => sameWith slice v w && sameListWith slice vs ws
  | _, _ => false
termination_by structural vs => vs

end

/-- Whether all values of a list are equal to those of another, by the given test. -/
def sameItems (same : Value → Value → Bool) : List Value → List Value → Bool
  | [], [] => true
  | v :: vs, w :: ws => same v w && sameItems same vs ws
  | _, _ => false

/-- Whether two values are equal, following at most `depth` addresses. -/
def sameUpTo (items : SliceAddr → List Value) : Nat → Value → Value → Bool
  | 0 => sameWith fun _ _ => true
  | depth + 1 => sameWith fun a b => sameItems (sameUpTo items depth) (items a) (items b)

end Value

/-- A value that comes from outside: it is a tree and shares nothing. -/
inductive Datum where
  | unit
  | int (value : Int64)
  | bool (value : Bool)
  | str (value : String)
  | list (elements : List Datum)
  | tuple (elements : List Datum)
  | function (name : String)
  | builtin (builtin : Builtin)

end Rivulet.Machine
