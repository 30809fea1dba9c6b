import Rivulet.Ascending
import Rivulet.Diagnostic
import Rivulet.Token.Basic

/-!
# Failures

Where and why a parser could not go on. When several attempts fail, the one that came farthest is
reported; if they failed at the same token, the report says what each of them expected there.
-/

set_option autoImplicit false

namespace Rivulet.Grammar

/-- The kind of a failure. -/
inductive Reason where
  /-- A token that cannot stand here, or the end of the text. -/
  | unexpected
  /-- A bracket that was opened at `opening` is not closed. -/
  | unclosed (opening : Span) (bracket : Token)
deriving DecidableEq

/-- The reason to keep of two failures at the same place: the more specific one, the first of
two. -/
def Reason.or : Reason → Reason → Reason
  | .unexpected, r => r
  | r, _ => r

/-- A failure of a parser. -/
structure Failure where
  /-- The number of tokens before the place of the failure. -/
  position : Nat
  /-- The span of the token there. -/
  span : Span
  /-- The token there; `none` at the end of the text. -/
  found : Option Token
  reason : Reason
  /-- What could have stood there; `none` is the end of the text. -/
  expected : List (Option Token)
deriving DecidableEq

namespace Failure

/-- The failure that came farther. Two failures at one place become one that expects what either
expected. -/
def farther (a b : Failure) : Failure :=
  if a.position < b.position then b
  else if b.position < a.position then a
  else
    { a with
      reason := a.reason.or b.reason
      expected := a.expected ++ b.expected.filter fun t => t ∉ a.expected }

/-- The farther of a failure and an optional one. -/
def fartherOf (a : Failure) : Option Failure → Failure
  | none => a
  | some b => a.farther b

/-- The farther of two optional failures; of two at one place, the second is extended. -/
def merge : Option Failure → Option Failure → Option Failure
  | a, none => a
  | none, b => b
  | some a, some b => some (b.farther a)

/-! ## Reports -/

/-- A token that was found, or the end of the text. -/
def describeFound : Option Token → String
  | some t => t.describe
  | none => "end of input"

/-- A token that was expected, or the end of the text. -/
def describeExpected : Option Token → String
  | some t => t.describeKind
  | none => "end of input"

/-- What was expected, in order and each once; of more than five, the first five. -/
def help (f : Failure) : Option String :=
  if f.expected.isEmpty then none
  else
    let texts := Ascending.ofList (f.expected.map describeExpected)
    if 5 < texts.length then
      some ("Expected one of: " ++ ", ".intercalate (texts.take 5) ++ ", ...")
    else some ("Expected: " ++ ", ".intercalate texts)

/-- The report of a failure. -/
def diagnostic (f : Failure) : Diagnostic :=
  match f.reason with
  | .unexpected =>
      { code := .parse
        message := "unexpected " ++ describeFound f.found
        span := f.span
        help := f.help }
  | .unclosed opening bracket =>
      { code := .parse
        message := "unclosed delimiter " ++ bracket.describe ++ ", found " ++ describeFound f.found
        span := f.span
        labels := [(opening, "delimiter opened here")]
        help := f.help }

end Failure

end Rivulet.Grammar
