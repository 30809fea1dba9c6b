import Rivulet.Typed.Ty

/-!
# The types of intermediate code

Intermediate code has types of its own, so that it can be built and checked without a program it
came from. They have the same shape as the types of the language: `Ir.Ty.ofTy?` takes one to the
other and fails on poison, which must not reach the code. A rejected expression of the code has type
`invalid`.
-/

set_option autoImplicit false

namespace Rivulet.Ir

/-- A type of intermediate code. -/
inductive Ty where
  | i64
  | bool
  | str
  | unit
  | slice (element : Ty)
  | func (params results : List Ty)
  | tuple (elements : List Ty)
  /-- The type of everything that was rejected. -/
  | invalid

namespace Ty

/-! ## Equality -/

mutual

/-- Whether two types are the same. -/
def same : Ty → Ty → Bool
  | .i64, .i64 | .bool, .bool | .str, .str | .unit, .unit | .invalid, .invalid => true
  | .slice a, .slice b => same a b
  | .func ps rs, .func qs ss => sameAll ps qs && sameAll rs ss
  | .tuple as, .tuple bs => sameAll as bs
  | _, _ => false
termination_by structural t => t

/-- Whether two lists of types are the same. -/
def sameAll : List Ty → List Ty → Bool
  | [], [] => true
  | a :: as, b :: bs => same a b && sameAll as bs
  | _, _ => false
termination_by structural ts => ts

end

mutual

theorem same_iff : ∀ a b : Ty, same a b = true ↔ a = b
  | .i64, b => by cases b <;> simp [same]
  | .bool, b => by cases b <;> simp [same]
  | .str, b => by cases b <;> simp [same]
  | .unit, b => by cases b <;> simp [same]
  | .invalid, b => by cases b <;> simp [same]
  | .slice a, b => by cases b <;> simp [same, same_iff a]
  | .func ps rs, b => by cases b <;> simp [same, sameAll_iff ps, sameAll_iff rs]
  | .tuple as, b => by cases b <;> simp [same, sameAll_iff as]

theorem sameAll_iff : ∀ as bs : List Ty, sameAll as bs = true ↔ as = bs
  | [], bs => by cases bs <;> simp [sameAll]
  | a :: as, bs => by cases bs <;> simp [sameAll, same_iff a, sameAll_iff as]

end

instance : DecidableEq Ty := fun a b => decidable_of_iff _ (same_iff a b)

instance : Inhabited Ty := ⟨.invalid⟩

/-! ## Parts of types -/

/-- A slice of `element`; a slice of something invalid is invalid. -/
def sliceOf (element : Ty) : Ty := if element = .invalid then .invalid else .slice element

/-- The type of the value of a call with these results. -/
def ofResults : List Ty → Ty
  | [] => .unit
  | [t] => t
  | ts => .tuple ts

/-- The results that a value of this type stands for. -/
def toResults : Ty → List Ty
  | .unit => []
  | .tuple ts => ts
  | t => [t]

/-- The element type of a slice. -/
def element? : Ty → Option Ty
  | .slice t => some t
  | _ => none

/-- The parameters and results of a function. -/
def callable? : Ty → Option (List Ty × List Ty)
  | .func ps rs => some (ps, rs)
  | _ => none

mutual

/-- Whether the type or a component of it is invalid. -/
def hasInvalid : Ty → Bool
  | .invalid => true
  | .i64 | .bool | .str | .unit => false
  | .slice t => hasInvalid t
  | .func ps rs => anyInvalid ps || anyInvalid rs
  | .tuple ts => anyInvalid ts
termination_by structural t => t

/-- Whether a list of types holds something invalid. -/
def anyInvalid : List Ty → Bool
  | [] => false
  | t :: ts => hasInvalid t || anyInvalid ts
termination_by structural ts => ts

end

/-! ## Text -/

mutual

/-- The type in printed code. -/
def render : Ty → String
  | .i64 => "i64"
  | .bool => "bool"
  | .str => "str"
  | .unit => "()"
  | .invalid => "<invalid>"
  | .slice t => "[]" ++ render t
  | .func ps [] => "fn(" ++ renderList ps ++ ")"
  | .func ps [r] => "fn(" ++ renderList ps ++ ") -> " ++ render r
  | .func ps (r :: rs) => "fn(" ++ renderList ps ++ ") -> (" ++ renderList (r :: rs) ++ ")"
  | .tuple ts => "(" ++ renderList ts ++ ")"
termination_by structural t => t

/-- Types with commas between them. -/
def renderList : List Ty → String
  | [] => ""
  | [t] => render t
  | t :: ts => render t ++ ", " ++ renderList ts
termination_by structural ts => ts

end

mutual

/-- The structure of a type. -/
def dump : Ty → Text.Dump
  | .i64 => .atom "I64"
  | .bool => .atom "Bool"
  | .str => .atom "Str"
  | .unit => .atom "Unit"
  | .invalid => .atom "Invalid"
  | .slice t => .apply "Slice" [dump t]
  | .func ps rs =>
      .apply "Func"
        [.record "FuncSig" [("params", .items (dumpList ps)), ("results", .items (dumpList rs))]]
  | .tuple ts => .apply "Tuple" [.items (dumpList ts)]
termination_by structural t => t

/-- The structures of several types. -/
def dumpList : List Ty → List Text.Dump
  | [] => []
  | t :: ts => dump t :: dumpList ts
termination_by structural ts => ts

end

instance : TypeShape Ty where
  poison := .invalid
  int := .i64
  bool := .bool
  str := .str
  seq := sliceOf
  element? := element?
  callable? := callable?
  hasPoison := hasInvalid
  render := render

/-! ## From the types of the language -/

mutual

/-- The counterpart of a type of the language, constructor by constructor. The counterpart of poison
is `invalid`. -/
def counterpart : Rivulet.Ty → Ty
  | .int => .i64
  | .bool => .bool
  | .str => .str
  | .unit => .unit
  | .seq t => .slice (counterpart t)
  | .func ps rs => .func (counterparts ps) (counterparts rs)
  | .tuple ts => .tuple (counterparts ts)
  | .poison => .invalid
termination_by structural t => t

/-- The counterparts of several types of the language. -/
def counterparts : List Rivulet.Ty → List Ty
  | [] => []
  | t :: ts => counterpart t :: counterparts ts
termination_by structural ts => ts

end

mutual

/-- The type of the code for values of a type of the language, unless poison occurs in it. -/
def ofTy? : Rivulet.Ty → Option Ty
  | .int => some .i64
  | .bool => some .bool
  | .str => some .str
  | .unit => some .unit
  | .seq t => (ofTy? t).map .slice
  | .func ps rs => do
      let ps ← ofTys? ps
      let rs ← ofTys? rs
      some (.func ps rs)
  | .tuple ts => (ofTys? ts).map .tuple
  | .poison => none
termination_by structural t => t

/-- The types of the code for several types of the language. -/
def ofTys? : List Rivulet.Ty → Option (List Ty)
  | [] => some []
  | t :: ts => do
      let t ← ofTy? t
      let ts ← ofTys? ts
      some (t :: ts)
termination_by structural ts => ts

end

end Ty

end Rivulet.Ir
