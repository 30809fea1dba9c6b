/-!
# Operators

The operators of the language and their table: how each is written, how tightly it binds, how a
chain of it groups, and by which rule its operands are checked. The parser groups chains of binary
operators by this table, both type checkers read the operand rule from it, and printed code takes
the symbol from it, so none of them can disagree about an operator.

Ranks order the binary operators from `|>`, which binds loosest, to `**`.
-/

set_option autoImplicit false

namespace Rivulet

/-- Operators in front of one operand. -/
inductive UnaryOp where
  | not
  | negate
deriving DecidableEq

namespace UnaryOp

/-- The operator as it is written. -/
def symbol : UnaryOp → String
  | .not => "!"
  | .negate => "-"

/-- The operator's name in a dump. -/
def label : UnaryOp → String
  | .not => "Not"
  | .negate => "Negate"

end UnaryOp

/-- Operators between two operands. -/
inductive BinaryOp where
  | add | sub | mul | div | mod | pow
  | bitAnd | bitOr | bitXor
  | eq | notEq | lt | gt | ltEq | gtEq
  | and | or
  /-- `s |> f` applies `f` to every element of the sequence `s`. -/
  | map
deriving DecidableEq

/-- How a chain of one operator groups. -/
inductive Assoc where
  | left
  | right
deriving DecidableEq

/-- How the operands of an operator are checked. -/
inductive OperandRule where
  /-- Two integers or two strings, giving the same. -/
  | additive
  /-- Two integers, giving an integer. -/
  | integer
  /-- Two integers, truth values or strings, giving a truth value. -/
  | equality
  /-- Two integers or two strings, giving a truth value. -/
  | ordering
  /-- Two truth values, giving a truth value. -/
  | logical
  /-- A sequence of `E` and a callable from `E` to `U`, giving a sequence of `U`. -/
  | map
deriving DecidableEq

namespace OperandRule

/-- Whether the rule asks both operands to have one common type. -/
def isHomogeneous (r : OperandRule) : Bool := r != .map

/-- The rule's name in a dump. -/
def label : OperandRule → String
  | .additive => "Additive"
  | .integer => "Integer"
  | .equality => "Equality"
  | .ordering => "Ordering"
  | .logical => "Logical"
  | .map => "Map"

end OperandRule

namespace BinaryOp

/-- Every binary operator, from the loosest to the tightest. -/
def all : List BinaryOp :=
  [.map, .or, .and, .eq, .notEq, .lt, .gt, .ltEq, .gtEq, .bitOr, .bitXor, .bitAnd,
   .add, .sub, .mul, .div, .mod, .pow]

/-- The operator as it is written. -/
def symbol : BinaryOp → String
  | .map => "|>"
  | .or => "||"
  | .and => "&&"
  | .eq => "=="
  | .notEq => "!="
  | .lt => "<"
  | .gt => ">"
  | .ltEq => "<="
  | .gtEq => ">="
  | .bitOr => "|"
  | .bitXor => "^"
  | .bitAnd => "&"
  | .add => "+"
  | .sub => "-"
  | .mul => "*"
  | .div => "/"
  | .mod => "%"
  | .pow => "**"

/-- The rank of an operator; a higher rank binds tighter. -/
def precedence : BinaryOp → Nat
  | .map => 1
  | .or => 2
  | .and => 3
  | .eq | .notEq | .lt | .gt | .ltEq | .gtEq => 4
  | .bitOr => 5
  | .bitXor => 6
  | .bitAnd => 7
  | .add | .sub => 8
  | .mul | .div | .mod => 9
  | .pow => 10

/-- How operators of one rank group: powers to the right, all others to the left. -/
def assoc : BinaryOp → Assoc
  | .pow => .right
  | _ => .left

/-- The rule for the operands. -/
def rule : BinaryOp → OperandRule
  | .map => .map
  | .or | .and => .logical
  | .eq | .notEq => .equality
  | .lt | .gt | .ltEq | .gtEq => .ordering
  | .add => .additive
  | .bitOr | .bitXor | .bitAnd | .sub | .mul | .div | .mod | .pow => .integer

/-- The operator's name in a dump. -/
def label : BinaryOp → String
  | .add => "Add"
  | .sub => "Sub"
  | .mul => "Mul"
  | .div => "Div"
  | .mod => "Mod"
  | .pow => "Pow"
  | .bitAnd => "BitAnd"
  | .bitOr => "BitOr"
  | .bitXor => "BitXor"
  | .eq => "Eq"
  | .notEq => "NotEq"
  | .lt => "Lt"
  | .gt => "Gt"
  | .ltEq => "LtEq"
  | .gtEq => "GtEq"
  | .and => "LogicalAnd"
  | .or => "LogicalOr"
  | .map => "Map"

/-- The operator that is written like this, if there is one. -/
def ofSymbol? (s : String) : Option BinaryOp := all.find? fun op => op.symbol == s

end BinaryOp

end Rivulet
