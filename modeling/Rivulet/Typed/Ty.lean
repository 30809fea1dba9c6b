import Rivulet.Builtin
import Rivulet.Text.Dump
import Rivulet.Typing.Operand

/-!
# The types of the language

`Ty` is the type that the checker gives to every expression of a program as it was written. Calls
that give nothing have type `unit`, calls that give several results have a tuple type, and whatever
was rejected has type `poison`.

`Ty.render` writes a type the way a program writes it, so the text of a type without `unit`, tuples
and poison can be read back as a type.
-/

set_option autoImplicit false

namespace Rivulet

/-- A type of the language. -/
inductive Ty where
  | int
  | bool
  | str
  /-- The value of a call without results. -/
  | unit
  | seq (element : Ty)
  | func (params results : List Ty)
  /-- The value of a call with several results. -/
  | tuple (elements : List Ty)
  /-- The type of everything that was rejected. -/
  | poison

namespace Ty

/-! ## Equality -/

mutual

/-- Whether two types are the same. -/
def same : Ty → Ty → Bool
  | .int, .int | .bool, .bool | .str, .str | .unit, .unit | .poison, .poison => true
  | .seq a, .seq b => same a b
  | .func ps rs, .func qs ss => sameAll ps qs && sameAll rs ss
  | .tuple as, .tuple bs => sameAll as bs
  | _, _ => false
termination_by structural t => t

/-- Whether two lists of types are the same. -/
def sameAll : List Ty → List Ty → Bool
  | [], [] => true
  | a :: as, b :: bs => same a b && sameAll as bs
  | _, _ => false
termination_by structural ts => ts

end

mutual

theorem same_iff : ∀ a b : Ty, same a b = true ↔ a = b
  | .int, b => by cases b <;> simp [same]
  | .bool, b => by cases b <;> simp [same]
  | .str, b => by cases b <;> simp [same]
  | .unit, b => by cases b <;> simp [same]
  | .poison, b => by cases b <;> simp [same]
  | .seq a, b => by cases b <;> simp [same, same_iff a]
  | .func ps rs, b => by cases b <;> simp [same, sameAll_iff ps, sameAll_iff rs]
  | .tuple as, b => by cases b <;> simp [same, sameAll_iff as]

theorem sameAll_iff : ∀ as bs : List Ty, sameAll as bs = true ↔ as = bs
  | [], bs => by cases bs <;> simp [sameAll]
  | a :: as, bs => by cases bs <;> simp [sameAll, same_iff a, sameAll_iff as]

end

instance : DecidableEq Ty := fun a b => decidable_of_iff _ (same_iff a b)

/-! ## Parts of types -/

/-- A sequence of `element`; poison spreads from the element to the sequence. -/
def seqOf (element : Ty) : Ty := if element = .poison then .poison else .seq element

/-- The type of the value of a call with these results. -/
def ofResults : List Ty → Ty
  | [] => .unit
  | [t] => t
  | ts => .tuple ts

/-- The results that a value of this type stands for. -/
def toResults : Ty → List Ty
  | .unit => []
  | .tuple ts => ts
  | t => [t]

/-- The element type of a sequence. -/
def element? : Ty → Option Ty
  | .seq t => some t
  | _ => none

/-- The parameters and results of a function. -/
def callable? : Ty → Option (List Ty × List Ty)
  | .func ps rs => some (ps, rs)
  | _ => none

mutual

/-- Whether the type or a component of it is poison. -/
def hasPoison : Ty → Bool
  | .poison => true
  | .int | .bool | .str | .unit => false
  | .seq t => hasPoison t
  | .func ps rs => anyPoison ps || anyPoison rs
  | .tuple ts => anyPoison ts
termination_by structural t => t

/-- Whether poison occurs in a list of types. -/
def anyPoison : List Ty → Bool
  | [] => false
  | t :: ts => hasPoison t || anyPoison ts
termination_by structural ts => ts

end

/-! ## Text -/

mutual

/-- The type as a program writes it. -/
def render : Ty → String
  | .int => "int"
  | .bool => "bool"
  | .str => "string"
  | .unit => "()"
  | .poison => "<error>"
  | .seq t => "[" ++ render t ++ "]"
  | .func ps [] => "fn(" ++ renderList ps ++ ")"
  | .func ps [r] => "fn(" ++ renderList ps ++ ") -> " ++ render r
  | .func ps (r :: rs) => "fn(" ++ renderList ps ++ ") -> (" ++ renderList (r :: rs) ++ ")"
  | .tuple ts => "(" ++ renderList ts ++ ")"
termination_by structural t => t

/-- Types with commas between them. -/
def renderList : List Ty → String
  | [] => ""
  | [t] => render t
  | t :: ts => render t ++ ", " ++ renderList ts
termination_by structural ts => ts

end

mutual

/-- The structure of a type. -/
def dump : Ty → Text.Dump
  | .int => .atom "Int"
  | .bool => .atom "Bool"
  | .str => .atom "Str"
  | .unit => .atom "Unit"
  | .poison => .atom "Poison"
  | .seq t => .apply "Seq" [dump t]
  | .func ps rs =>
      .record "Func" [("params", .items (dumpList ps)), ("results", .items (dumpList rs))]
  | .tuple ts => .apply "Tuple" [.items (dumpList ts)]
termination_by structural t => t

/-- The structures of several types. -/
def dumpList : List Ty → List Text.Dump
  | [] => []
  | t :: ts => dump t :: dumpList ts
termination_by structural ts => ts

end

instance : TypeShape Ty where
  poison := .poison
  int := .int
  bool := .bool
  str := .str
  seq := seqOf
  element? := element?
  callable? := callable?
  hasPoison := hasPoison
  render := render

end Ty

/-- The type of a builtin that is used as a value; the other builtins can only be called. -/
def Builtin.valueType? : Builtin → Option Ty
  | .str => some (.func [.int] [.str])
  | .len | .println => none

end Rivulet
