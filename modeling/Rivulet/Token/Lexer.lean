import Rivulet.Diagnostic
import Rivulet.Report
import Rivulet.Token.Basic

/-!
# The lexer

A source text is cut into *pieces*: blanks (runs of white space, and comments up to the end of their
line), tokens, and faulty stretches that are no token. `Piece.read` finds the piece at the front of
a text. It always takes the longest piece that can stand there, and it returns the characters of the
piece together with the rest of the text, so that nothing is lost or read twice: `text ++ rest` is
the text that was read (`Piece.text_append_rest`). Cutting is then a loop on the rest.

Two stretches are faulty: an integer literal that does not fit a signed 64-bit word, over all its
digits, and a stretch that starts no token. The latter is a single character, except at a double
quote: a string that never ends is faulty up to where reading it got stuck, which is the end of the
text or a backslash that starts no known escape.
-/

set_option autoImplicit false

namespace Rivulet

/-! ## Character classes -/

namespace Token

/-- White space between tokens. -/
def isBlank (c : Char) : Bool :=
  c == ' ' || c == '\t' || c == '\r' || c == '\n' || c == '\x0c'

/-- The first character of a name. -/
def isNameStart (c : Char) : Bool := c.isAlpha || c == '_'

/-- The later characters of a name. -/
def isNamePart (c : Char) : Bool := c.isAlphanum || c == '_'

/-- The value of a run of decimal digits. -/
def decimal (digits : List Char) : Nat :=
  digits.foldl (fun n c => 10 * n + (c.toNat - '0'.toNat)) 0

/-- The largest value of an integer literal, which is that of a signed 64-bit word. -/
def maxInt : Nat := 9223372036854775807

/-- Why a stretch of text is not a token. -/
inductive Fault where
  /-- No token starts with these characters. -/
  | unrecognized (text : List Char)
  /-- The digits denote a number above `maxInt`. -/
  | outOfRange (digits : List Char)
deriving DecidableEq

/-- The report of a fault at a span. -/
def Fault.diagnostic (f : Fault) (span : Span) : Diagnostic :=
  match f with
  | .unrecognized text =>
      { code := .lexical
        message := "unrecognized character sequence '" ++ Text.sample text ++ "'"
        span := span
        help := some "this character is not part of any Rill token" }
  | .outOfRange digits =>
      { code := .lexical
        message := "integer literal '" ++ String.ofList digits ++ "' is out of range"
        span := span
        help := some "integers are 64-bit signed, at most 9223372036854775807" }

/-! ## String literals

A literal is found first and its value is computed afterwards: `StringBody.read` looks for the closing
quote, and `unescape` replaces the escapes in what was found. -/

/-- What may follow a backslash in a string literal. -/
def isEscape (c : Char) : Bool := c == '\x22' || c == '\x5c' || c == 'n' || c == 't'

/-- The character that an escape stands for. -/
def unescape? (c : Char) : Option Char :=
  if c = 'n' then some '\n'
  else if c = 't' then some '\t'
  else if c = '\x22' then some '\x22'
  else if c = '\x5c' then some '\x5c'
  else none

/-- The text between the quotes of a literal with its escapes replaced. Fails at a backslash that
starts no escape. -/
def unescapeBody : List Char → Option (List Char)
  | [] => some []
  | [c] => if c = '\x5c' then none else some [c]
  | c :: d :: cs =>
      if c = '\x5c' then
        match unescape? d with
        | some e => (unescapeBody cs).map (e :: ·)
        | none => none
      else (unescapeBody (d :: cs)).map (c :: ·)

/-- The text that a string literal stands for. Fails if the quotes around it are missing. -/
def unescape : List Char → Option (List Char)
  | [] => none
  | c :: cs =>
      if c = '\x22' ∧ cs.getLast? = some '\x22' then unescapeBody cs.dropLast else none

/-- The outcome of reading a string literal after its opening quote. -/
inductive StringBody where
  /-- The closing quote was found. `text` ends with it. -/
  | closed (text rest : List Char)
  /-- Reading got stuck after `text`. -/
  | stuck (text rest : List Char)

namespace StringBody

/-- A string body with more characters in front. -/
def push (written : List Char) : StringBody → StringBody
  | .closed text rest => .closed (written ++ text) rest
  | .stuck text rest => .stuck (written ++ text) rest

/-- The characters that were read. -/
def text : StringBody → List Char
  | .closed text _ => text
  | .stuck text _ => text

/-- The characters that were not read. -/
def rest : StringBody → List Char
  | .closed _ rest => rest
  | .stuck _ rest => rest

/-- Read a string literal after its opening quote. -/
def read : List Char → StringBody
  | [] => .stuck [] []
  | [c] =>
      if c = '\x22' then .closed [c] []
      else .stuck [c] []
  | c :: d :: cs =>
      if c = '\x22' then .closed [c] (d :: cs)
      else if c = '\x5c' then
        if isEscape d then push [c, d] (read cs) else .stuck [c] (d :: cs)
      else push [c] (read (d :: cs))

@[simp] theorem text_push (written : List Char) (b : StringBody) :
    (push written b).text = written ++ b.text := by cases b <;> rfl

@[simp] theorem rest_push (written : List Char) (b : StringBody) :
    (push written b).rest = b.rest := by cases b <;> rfl

/-- Reading a string literal splits the text. -/
theorem text_append_rest (cs : List Char) : (read cs).text ++ (read cs).rest = cs := by
  fun_induction read cs with
  | case5 d cs _ _ ih => simp [ih]
  | case7 c d cs _ _ ih => simp [ih]
  | _ => simp_all [text, rest]

end StringBody

end Token

/-! ## Pieces -/

/-- What a piece of source text is. -/
inductive Piece where
  | blank
  | token (t : Token)
  | fault (f : Token.Fault)
deriving DecidableEq

/-- The piece at the front of a text, with its characters and the characters after it. -/
structure Cut where
  piece : Piece
  text : List Char
  rest : List Char

namespace Cut

/-- The longest run of characters of a class, behind a first character that is given. -/
def run (p : Char → Bool) (c : Char) (cs : List Char) (piece : List Char → Piece) : Cut :=
  { piece := piece (c :: cs.takeWhile p)
    text := c :: cs.takeWhile p
    rest := cs.dropWhile p }

/-- A name, which is a keyword if it is spelled like one. -/
def name (text : List Char) : Piece :=
  match Keyword.ofSpelling? (String.ofList text) with
  | some k => .token (.keyword k)
  | none => .token (.ident (String.ofList text))

/-- A run of digits, which is an integer if its value fits. -/
def number (digits : List Char) : Piece :=
  if Token.decimal digits ≤ Token.maxInt then
    .token (.int (Int64.ofNat (Token.decimal digits)))
  else .fault (.outOfRange digits)

/-- A string literal that was found, if it stands for a text. -/
def literal (text : List Char) : Piece :=
  match Token.unescape text with
  | some value => .token (.str (String.ofList value))
  | none => .fault (.unrecognized text)

/-- A string literal, given what follows its opening quote. -/
def string (quote : Char) : Token.StringBody → Cut
  | .closed text rest => ⟨literal (quote :: text), quote :: text, rest⟩
  | .stuck text rest => ⟨.fault (.unrecognized (quote :: text)), quote :: text, rest⟩

/-- A mark, or else a single faulty character. -/
def mark (c : Char) (cs : List Char) : Cut :=
  match Mark.longest? (c :: cs) with
  | some m =>
      { piece := .token (.mark m)
        text := (c :: cs).take (max 1 m.spelling.length)
        rest := (c :: cs).drop (max 1 m.spelling.length) }
  | none => ⟨.fault (.unrecognized [c]), [c], cs⟩

/-- Cut off the piece at the front of the text `c :: cs`. -/
def front (c : Char) (cs : List Char) : Cut :=
  if Token.isBlank c then run Token.isBlank c cs fun _ => .blank
  else if c = '/' ∧ cs.head? = some '/' then run (fun d => d != '\n') c cs fun _ => .blank
  else if Token.isNameStart c then run Token.isNamePart c cs name
  else if c.isDigit then run Char.isDigit c cs number
  else if c = '\x22' then string c (Token.StringBody.read cs)
  else mark c cs

@[simp] theorem run_text_append_rest (p : Char → Bool) (c : Char) (cs : List Char)
    (piece : List Char → Piece) :
    (run p c cs piece).text ++ (run p c cs piece).rest = c :: cs := by
  simp [run]

@[simp] theorem string_text_append_rest (quote : Char) (b : Token.StringBody) :
    (string quote b).text ++ (string quote b).rest = quote :: (b.text ++ b.rest) := by
  cases b <;> rfl

@[simp] theorem mark_text_append_rest (c : Char) (cs : List Char) :
    (mark c cs).text ++ (mark c cs).rest = c :: cs := by
  unfold mark
  split <;> simp

/-- A cut loses nothing and reads nothing twice. -/
theorem text_append_rest (c : Char) (cs : List Char) :
    (front c cs).text ++ (front c cs).rest = c :: cs := by
  unfold front
  repeat' split
  all_goals simp [Token.StringBody.text_append_rest]

/-- A cut is never empty. -/
theorem text_ne_nil (c : Char) (cs : List Char) : (front c cs).text ≠ [] := by
  unfold front
  repeat' split
  · simp [run]
  · simp [run]
  · simp [run]
  · simp [run]
  · cases Token.StringBody.read cs <;> simp [string]
  · unfold mark
    split
    · simp
    · simp

/-- What is left after a cut is shorter. -/
theorem rest_length_lt (c : Char) (cs : List Char) :
    (front c cs).rest.length < (c :: cs).length := by
  have h := congrArg List.length (text_append_rest c cs)
  have := List.length_pos_iff.2 (text_ne_nil c cs)
  simp only [List.length_append] at h
  omega

end Cut

/-! ## Whole texts -/

namespace Token

/-- The number of bytes of a text. -/
def byteLength (cs : List Char) : Nat := cs.foldr (fun c n => c.utf8Size + n) 0

/-- Cut a text that starts at byte `offset` into its pieces. -/
def pieces (offset : Nat) : List Char → List (Piece × Span)
  | [] => []
  | c :: cs =>
      let cut := Cut.front c cs
      let stop := offset + byteLength cut.text
      (cut.piece, ⟨offset, stop⟩) :: pieces stop cut.rest
termination_by cs => cs.length
decreasing_by exact Cut.rest_length_lt c cs

/-- The lexeme in a piece, if the piece is a token. -/
def lexeme? : Piece × Span → Option Lexeme
  | (.token t, span) => some ⟨t, span⟩
  | _ => none

/-- The report on a piece, if the piece is faulty. -/
def diagnostic? : Piece × Span → Option Diagnostic
  | (.fault f, span) => some (f.diagnostic span)
  | _ => none

/-- The tokens of a source text and the reports on its faulty stretches. -/
def lex (source : String) : Report Diagnostic (List Lexeme) :=
  let ps := pieces 0 source.toList
  ⟨ps.filterMap lexeme?, ps.filterMap diagnostic?⟩

/-- The tokens of a text alone, without their spans and without reports. -/
def tokens : List Char → List Token
  | [] => []
  | c :: cs =>
      let cut := Cut.front c cs
      match cut.piece with
      | .token t => t :: tokens cut.rest
      | .blank | .fault _ => tokens cut.rest
termination_by cs => cs.length
decreasing_by all_goals exact Cut.rest_length_lt c cs

/-! ## One token at a time -/

/-- A text that is being read token by token: where reading stands, the characters still to be
read, and the reports made so far. -/
structure Stream where
  offset : Nat
  rest : List Char
  diagnostics : List Diagnostic

namespace Stream

/-- A stream at the front of a source text. -/
def ofSource (source : String) : Stream := ⟨0, source.toList, []⟩

/-- The next token, if there is one, after reporting the faulty stretches in front of it. -/
def next (s : Stream) : Option Lexeme × Stream :=
  match _h : s.rest with
  | [] => (none, s)
  | c :: cs =>
      let cut := Cut.front c cs
      let span : Span := ⟨s.offset, s.offset + byteLength cut.text⟩
      match cut.piece with
      | .token t => (some ⟨t, span⟩, ⟨span.stop, cut.rest, s.diagnostics⟩)
      | .blank => next ⟨span.stop, cut.rest, s.diagnostics⟩
      | .fault f => next ⟨span.stop, cut.rest, s.diagnostics ++ [f.diagnostic span]⟩
termination_by s.rest.length
decreasing_by all_goals (rw [_h]; exact Cut.rest_length_lt c cs)

end Stream

end Token

end Rivulet
