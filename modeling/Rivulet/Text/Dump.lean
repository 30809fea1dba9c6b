import Rivulet.Span
import Rivulet.Text.Quoted

/-!
# Structural dumps

Every tree of the compiler can be written out in full, constructor by constructor and field by
field. A `Dump` is that text before its layout is chosen, so each tree is described once (its
`dump` function) and written in either of two ways:

* `Dump.line` keeps everything on one line: `Name { f: v, g: w }`, `Name(v, w)`, `[v, w]`;
* `Dump.block` gives each part a line of its own, indented by four spaces per level and ended by a
  comma. Atoms and empty lists stay on one line.
-/

set_option autoImplicit false

namespace Rivulet.Text

/-- A value described by its parts. -/
inductive Dump where
  /-- Text without parts: a number, a span, a quoted string, a constructor without arguments. -/
  | atom (text : String)
  /-- A constructor with named parts. -/
  | record (name : String) (fields : List (String × Dump))
  /-- A constructor with unnamed parts; a tuple is one with an empty name. -/
  | apply (name : String) (args : List Dump)
  /-- A list. -/
  | items (elems : List Dump)

namespace Dump

/-! ## Building dumps -/

/-- A string value, quoted. -/
def text (s : String) : Dump := .atom (quote s)

/-- A natural number in decimal. -/
def nat (n : Nat) : Dump := .atom (toString n)

/-- A signed word in decimal. -/
def word (n : Int64) : Dump := .atom (toString n.toInt)

/-- A truth value. -/
def bool (b : Bool) : Dump := .atom (if b then "true" else "false")

/-- An optional value. -/
def option : Option Dump → Dump
  | none => .atom "None"
  | some d => .apply "Some" [d]

/-! ## One line -/

mutual

/-- The dump on one line. -/
def line : Dump → String
  | .atom t => t
  | .record name fields => name ++ " \x7b " ++ lineFields fields ++ " \x7d"
  | .apply name args => name ++ "(" ++ lineItems args ++ ")"
  | .items elems => "[" ++ lineItems elems ++ "]"
termination_by structural d => d

/-- Named parts on one line, with commas between them. -/
def lineFields : List (String × Dump) → String
  | [] => ""
  | [(name, d)] => name ++ ": " ++ line d
  | (name, d) :: rest => name ++ ": " ++ line d ++ ", " ++ lineFields rest
termination_by structural fields => fields

/-- Unnamed parts on one line, with commas between them. -/
def lineItems : List Dump → String
  | [] => ""
  | [d] => line d
  | d :: rest => line d ++ ", " ++ lineItems rest
termination_by structural elems => elems

end

/-! ## One part a line -/

/-- The blanks in front of a line at the given depth. -/
def margin (depth : Nat) : String := "".pushn ' ' (4 * depth)

mutual

/-- The dump with every part on its own line, where the first line stands at depth `depth`. -/
def blockAt (depth : Nat) : Dump → String
  | .atom t => t
  | .record name fields =>
      name ++ " \x7b\n" ++ blockFields (depth + 1) fields ++ margin depth ++ "\x7d"
  | .apply name args => name ++ "(\n" ++ blockItems (depth + 1) args ++ margin depth ++ ")"
  | .items [] => "[]"
  | .items (d :: rest) => "[\n" ++ blockItems (depth + 1) (d :: rest) ++ margin depth ++ "]"
termination_by structural d => d

/-- Named parts, one a line. -/
def blockFields (depth : Nat) : List (String × Dump) → String
  | [] => ""
  | (name, d) :: rest =>
      margin depth ++ name ++ ": " ++ blockAt depth d ++ ",\n" ++ blockFields depth rest
termination_by structural fields => fields

/-- Unnamed parts, one a line. -/
def blockItems (depth : Nat) : List Dump → String
  | [] => ""
  | d :: rest => margin depth ++ blockAt depth d ++ ",\n" ++ blockItems depth rest
termination_by structural elems => elems

end

/-- The dump with every part on its own line. -/
def block (d : Dump) : String := blockAt 0 d

end Dump

end Rivulet.Text

namespace Rivulet

/-- A span is dumped as its two offsets. -/
def Span.dump (s : Span) : Text.Dump := .atom s.render

end Rivulet
