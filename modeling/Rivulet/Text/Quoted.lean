import Rivulet.Text.Printable

/-!
# Quoted text

How a text is shown inside quotes. Line breaks, tabs, the backslash and the quotes themselves get a
backslash; a character that cannot be seen, or that would be drawn onto its neighbour, is written by
its code point in hexadecimal. Two forms are needed:

* `quote` surrounds the text with double quotes and is used for string values. Only the double quote
  needs a backslash, and an extending character is written by its code point wherever it stands.
* `sample` is the text shown in a message between single quotes. Both quotes get a backslash, and an
  extending character is written by its code point only at the front, where there is nothing of the
  sample it could be drawn onto.
-/

set_option autoImplicit false

namespace Rivulet.Text

/-- The two decisions in which the quoted forms differ. -/
structure Escaping where
  /-- Whether a single quote gets a backslash. -/
  singleQuotes : Bool
  /-- Whether an extending character is written by its code point. -/
  extenders : Bool

/-- A code point in lower-case hexadecimal between braces. -/
def codePoint (c : Char) : String :=
  "\\u\x7b" ++ String.ofList (Nat.toDigits 16 c.toNat) ++ "\x7d"

/-- One character in quoted form. -/
def Escaping.char (esc : Escaping) (c : Char) : String :=
  if c = '\x00' then "\\0"
  else if c = '\t' then "\\t"
  else if c = '\r' then "\\r"
  else if c = '\n' then "\\n"
  else if c = '\x5c' then "\\\\"
  else if c = '\x22' then "\\\""
  else if c = '\x27' && esc.singleQuotes then "\\\x27"
  else if isExtending c && esc.extenders then codePoint c
  else if isPrintable c then String.singleton c
  else codePoint c

/-- A text in quoted form, without the quotes. -/
def Escaping.text (esc : Escaping) (cs : List Char) : String :=
  String.join (cs.map esc.char)

/-- A string value between double quotes. -/
def quote (s : String) : String :=
  "\"" ++ Escaping.text ⟨false, true⟩ s.toList ++ "\""

/-- A piece of source text, to be set between single quotes in a message. -/
def sample : List Char → String
  | [] => ""
  | c :: cs => Escaping.char ⟨true, true⟩ c ++ Escaping.text ⟨true, false⟩ cs

end Rivulet.Text
