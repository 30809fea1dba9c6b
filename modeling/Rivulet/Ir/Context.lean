import Rivulet.Ir.Ty

/-!
# The locals and allocation sites of a function

A function of intermediate code numbers its locals, those of its closures included, and the places
where it creates sequences. The `Context` of a function holds the table of locals and hands out
numbers: for locals that a program declares, for temporaries that a transformation introduces, and
for allocation sites. The name of a temporary starts with a dollar sign, which no name in a program
does, and ends with a number that is never used twice.
-/

set_option autoImplicit false

namespace Rivulet.Ir

/-- The number of a local. -/
structure LocalId where
  index : Nat
deriving DecidableEq, Inhabited

/-- The number of an allocation site. -/
structure Site where
  index : Nat
deriving DecidableEq, Inhabited

instance : LT Site := ⟨fun a b => a.index < b.index⟩

instance : DecidableLT Site := fun a b => inferInstanceAs (Decidable (a.index < b.index))

/-- The site in printed code. -/
def Site.render (s : Site) : String := "@" ++ toString s.index

/-- What is known of a local. -/
structure LocalInfo where
  name : String
  ty : Ty
  /-- Whether it was introduced by a transformation. -/
  temp : Bool
deriving DecidableEq

/-- The locals and allocation sites of a function. -/
structure Context where
  locals : Array LocalInfo := #[]
  /-- The number of the next temporary. -/
  nextTemp : Nat := 0
  /-- The number of the next allocation site. -/
  nextSite : Nat := 0
deriving DecidableEq

namespace Context

/-- What is known of a local, if it is in the table. -/
def get? (ctx : Context) (x : LocalId) : Option LocalInfo := ctx.locals[x.index]?

/-- The type of a local; `invalid` for a number that is not in the table. -/
def typeOf (ctx : Context) (x : LocalId) : Ty := ((ctx.get? x).map LocalInfo.ty).getD .invalid

/-- The name of a local; a question mark for a number that is not in the table. -/
def nameOf (ctx : Context) (x : LocalId) : String := ((ctx.get? x).map LocalInfo.name).getD "?"

/-- Whether a local was introduced by a transformation. -/
def isTemp (ctx : Context) (x : LocalId) : Bool := (ctx.get? x).any LocalInfo.temp

/-- The local in printed code: its name and its number. -/
def render (ctx : Context) (x : LocalId) : String := ctx.nameOf x ++ "." ++ toString x.index

/-- Add a local of a program. -/
def declare (ctx : Context) (name : String) (ty : Ty) : LocalId × Context :=
  (⟨ctx.locals.size⟩, { ctx with locals := ctx.locals.push ⟨name, ty, false⟩ })

/-- Add a temporary. -/
def freshTemp (ctx : Context) (hint : String) (ty : Ty) : LocalId × Context :=
  (⟨ctx.locals.size⟩,
    { ctx with
      locals := ctx.locals.push ⟨"$" ++ hint ++ toString ctx.nextTemp, ty, true⟩
      nextTemp := ctx.nextTemp + 1 })

/-- Add an allocation site. -/
def freshSite (ctx : Context) : Site × Context :=
  (⟨ctx.nextSite⟩, { ctx with nextSite := ctx.nextSite + 1 })

end Context

end Rivulet.Ir
