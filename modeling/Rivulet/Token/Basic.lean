import Rivulet.Text.Dump

/-!
# Tokens

The words of the language. A token is a keyword, a mark (operator, separator or bracket), or one of
three kinds that carry a value: a name, an integer and a string.

Keywords and marks are finite, and everything about them comes from their `spelling`: the lexer
finds a keyword or a mark by searching `all` for a spelling, and messages quote the same spelling.
-/

set_option autoImplicit false

namespace Rivulet

/-! ## Keywords -/

/-- Names with a fixed meaning. -/
inductive Keyword where
  | function | fn | var | const | return | if | else | while | true | false
deriving DecidableEq

namespace Keyword

/-- Every keyword. -/
def all : List Keyword :=
  [.function, .fn, .var, .const, .return, .if, .else, .while, .true, .false]

/-- The keyword as it is written. -/
def spelling : Keyword → String
  | .function => "function"
  | .fn => "fn"
  | .var => "var"
  | .const => "const"
  | .return => "return"
  | .if => "if"
  | .else => "else"
  | .while => "while"
  | .true => "true"
  | .false => "false"

/-- The keyword's name in a dump. -/
def label : Keyword → String
  | .function => "Function"
  | .fn => "Fn"
  | .var => "Var"
  | .const => "Const"
  | .return => "Return"
  | .if => "If"
  | .else => "Else"
  | .while => "While"
  | .true => "True"
  | .false => "False"

/-- The keyword with the given spelling. -/
def ofSpelling? (s : String) : Option Keyword := all.find? fun k => k.spelling == s

end Keyword

/-! ## Marks -/

/-- Operators, separators and brackets. -/
inductive Mark where
  | pipeMap | or | pipe | and | ampersand | caret | not
  | colonEq | eq | doubleEq | notEq
  | plus | minus | star | pow | slash | percent
  | gt | lt | gtEq | ltEq
  | arrow | comma | colon | semicolon
  | lparen | rparen | lbrace | rbrace | lbracket | rbracket
deriving DecidableEq

namespace Mark

/-- Every mark. -/
def all : List Mark :=
  [.pipeMap, .or, .pipe, .and, .ampersand, .caret, .not, .colonEq, .eq, .doubleEq, .notEq,
   .plus, .minus, .star, .pow, .slash, .percent, .gt, .lt, .gtEq, .ltEq,
   .arrow, .comma, .colon, .semicolon, .lparen, .rparen, .lbrace, .rbrace, .lbracket, .rbracket]

/-- The mark as it is written: one character or two. -/
def spelling : Mark → String
  | .pipeMap => "|>"
  | .or => "||"
  | .pipe => "|"
  | .and => "&&"
  | .ampersand => "&"
  | .caret => "^"
  | .not => "!"
  | .colonEq => ":="
  | .eq => "="
  | .doubleEq => "=="
  | .notEq => "!="
  | .plus => "+"
  | .minus => "-"
  | .star => "*"
  | .pow => "**"
  | .slash => "/"
  | .percent => "%"
  | .gt => ">"
  | .lt => "<"
  | .gtEq => ">="
  | .ltEq => "<="
  | .arrow => "->"
  | .comma => ","
  | .colon => ":"
  | .semicolon => ";"
  | .lparen => "("
  | .rparen => ")"
  | .lbrace => "\x7b"
  | .rbrace => "\x7d"
  | .lbracket => "["
  | .rbracket => "]"

/-- The mark's name in a dump. -/
def label : Mark → String
  | .pipeMap => "PipeMap"
  | .or => "Or"
  | .pipe => "Pipe"
  | .and => "And"
  | .ampersand => "Ampersand"
  | .caret => "Caret"
  | .not => "Not"
  | .colonEq => "ColonEq"
  | .eq => "Eq"
  | .doubleEq => "DoubleEq"
  | .notEq => "NotEq"
  | .plus => "Plus"
  | .minus => "Minus"
  | .star => "Star"
  | .pow => "Pow"
  | .slash => "Slash"
  | .percent => "Percent"
  | .gt => "Gt"
  | .lt => "Lt"
  | .gtEq => "GtEq"
  | .ltEq => "LtEq"
  | .arrow => "Arrow"
  | .comma => "Comma"
  | .colon => "Colon"
  | .semicolon => "Semicolon"
  | .lparen => "LParen"
  | .rparen => "RParen"
  | .lbrace => "LBrace"
  | .rbrace => "RBrace"
  | .lbracket => "LBracket"
  | .rbracket => "RBracket"

/-- The mark that consists of exactly these characters. -/
def ofChars? (cs : List Char) : Option Mark := all.find? fun m => m.spelling.toList == cs

/-- The longest mark at the front of a text: two characters if they form a mark, otherwise one. -/
def longest? : List Char → Option Mark
  | [] => none
  | [c] => ofChars? [c]
  | c :: d :: _ => (ofChars? [c, d]).or (ofChars? [c])

end Mark

/-! ## Tokens -/

/-- A word of the language. -/
inductive Token where
  | keyword (k : Keyword)
  | mark (m : Mark)
  /-- A name that is not a keyword. -/
  | ident (name : String)
  /-- An integer literal; its value is never negative in a lexed text. -/
  | int (value : Int64)
  /-- A string literal, with its escapes already replaced. -/
  | str (value : String)
deriving DecidableEq

namespace Token

/-- The token in a message. -/
def describe : Token → String
  | .keyword k => "'" ++ k.spelling ++ "'"
  | .mark m => "'" ++ m.spelling ++ "'"
  | .ident name => "identifier '" ++ name ++ "'"
  | .int n => "integer " ++ toString n.toInt
  | .str _ => "string"

/-- What a message says was expected: the kind of a token that carries a value, any other token as
it is written. -/
def describeKind : Token → String
  | .ident _ => "identifier"
  | .int _ => "integer"
  | t => t.describe

/-- The structure of a token. -/
def dump : Token → Text.Dump
  | .keyword k => .atom k.label
  | .mark m => .atom m.label
  | .ident name => .apply "Identifier" [.text name]
  | .int n => .apply "Int" [.word n]
  | .str s => .apply "Str" [.text s]

end Token

/-- A token and the span of source text it was read from. -/
structure Lexeme where
  token : Token
  span : Span
deriving DecidableEq

end Rivulet
