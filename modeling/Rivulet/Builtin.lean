/-!
# Builtin functions

Three functions are known without being defined. `str` is an ordinary function value. `len` and
`println` accept operands of several types, so they have no type of their own and can only be called
directly.
-/

set_option autoImplicit false

namespace Rivulet

/-- A function that needs no definition. -/
inductive Builtin where
  /-- The number of elements of a sequence. -/
  | len
  /-- An integer in decimal. -/
  | str
  /-- Print one value on a line. -/
  | println
deriving DecidableEq

namespace Builtin

/-- Every builtin. -/
def all : List Builtin := [.len, .str, .println]

/-- The name under which a program calls it. -/
def name : Builtin → String
  | .len => "len"
  | .str => "str"
  | .println => "println"

/-- The builtin's name in a dump. -/
def label : Builtin → String
  | .len => "Len"
  | .str => "Str"
  | .println => "Println"

/-- The builtin of the given name. -/
def ofName? (s : String) : Option Builtin := all.find? fun b => b.name == s

end Builtin

end Rivulet
