import Rivulet.Grammar.Failure

/-!
# Cursors and replies

A `Cursor` is a place in a list of tokens. A parser is a function from cursors to replies. A `Reply`
holds the failures the parser has already recovered from, and either a value with the cursor behind
it, or the failure that stopped the parser.

A reply with a value may also hold a *rival*: the farthest failure of the attempts that were given
up on the way. It is not an error, but if the parse fails later at the same place, what the rival
expected belongs into the report.
-/

set_option autoImplicit false

namespace Rivulet.Grammar

/-- A place between two tokens of a text. -/
structure Cursor where
  /-- The tokens that are still to be read. -/
  rest : List Lexeme
  /-- The number of tokens that have been read. -/
  position : Nat
  /-- The end of the last token that has been read. -/
  lastStop : Nat
  /-- The number of tokens of the text. -/
  total : Nat
  /-- The span that stands for the end of the text. -/
  ending : Span
  /-- Each token has been read or is still to be read. -/
  position_add : position + rest.length = total

namespace Cursor

/-- The cursor in front of all tokens of a text of `size` bytes. -/
def start (tokens : List Lexeme) (size : Nat) : Cursor :=
  { rest := tokens
    position := 0
    lastStop := 0
    total := tokens.length
    ending := ⟨size, size + 1⟩
    position_add := Nat.zero_add _ }

/-- The next token and the cursor behind it. -/
def next? (c : Cursor) : Option (Lexeme × Cursor) :=
  match h : c.rest with
  | [] => none
  | l :: rest =>
      some (l,
        { c with
          rest := rest
          position := c.position + 1
          lastStop := l.span.stop
          position_add := by
            have := c.position_add
            rw [h, List.length_cons] at this
            omega })

/-- The cursor behind the next token; at the end of the text it stays where it is. -/
def advance (c : Cursor) : Cursor :=
  match c.next? with
  | some (_, c') => c'
  | none => c

/-- The cursor behind the next `n` tokens. -/
def advanceBy : Nat → Cursor → Cursor
  | 0, c => c
  | n + 1, c => advanceBy n c.advance

/-- The token at the cursor. -/
def found (c : Cursor) : Option Token := c.rest.head?.map Lexeme.token

/-- The span of the token at the cursor. -/
def span (c : Cursor) : Span :=
  match c.rest with
  | [] => c.ending
  | l :: _ => l.span

/-- The span from the token at `c` to the last token read before `d`. -/
def spanTo (c d : Cursor) : Span :=
  if c.position < d.position then ⟨c.span.start, d.lastStop⟩ else c.span

/-- The failure at the cursor, where one of `expected` should stand. -/
def failure (c : Cursor) (expected : List (Option Token)) : Failure :=
  ⟨c.position, c.span, c.found, .unexpected, expected⟩

/-- One more than the number of tokens still to be read: a loop that reads a token in every round
but the last ends within so many rounds. -/
def rounds (c : Cursor) : Nat := c.total - c.position + 1

end Cursor

/-- How a parser ended. -/
inductive Result (α : Type) where
  /-- With a value. -/
  | ok (value : α) (next : Cursor) (rival : Option Failure)
  /-- With a failure. -/
  | fail (failure : Failure)

/-- The answer of a parser. -/
structure Reply (α : Type) where
  /-- The failures that were recovered from. -/
  errors : List Failure
  result : Result α

/-- A parser of values of type `α`. -/
abbrev Parser (α : Type) := Cursor → Reply α

namespace Result

variable {α β : Type}

/-- Apply a function to the value. -/
def map (f : α → β) : Result α → Result β
  | .ok a c r => .ok (f a) c r
  | .fail e => .fail e

/-- The failure that another attempt has to beat: the rival of a value, or the failure itself. -/
def rival? : Result α → Option Failure
  | .ok _ _ r => r
  | .fail e => some e

/-- Merge a failure into the rival of a value. -/
def addRival (other : Option Failure) : Result α → Result α
  | .ok a c r => .ok a c (Failure.merge r other)
  | .fail e => .fail e

end Result

namespace Reply

variable {α β : Type}

/-- Apply a function to the value. -/
def map (f : α → β) (r : Reply α) : Reply β := ⟨r.errors, r.result.map f⟩

/-- A value without errors. -/
def isClean (r : Reply α) : Bool :=
  match r.result with
  | .ok _ _ _ => r.errors.isEmpty
  | .fail _ => false

end Reply

end Rivulet.Grammar
