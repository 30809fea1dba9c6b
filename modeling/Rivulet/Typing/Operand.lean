import Rivulet.Diagnostic
import Rivulet.Operator

/-!
# Operand rules

Programs are type checked twice: once as they were written, over the types of the language, and once
as intermediate code, over the types of that code. The operators must mean the same to both, so
their rules are stated once, over any type system that has the shape `TypeShape` asks for.

A type that was already rejected is *poison*. A rule never complains about poison: an operand that
is poison gives a poisoned result, and a comparison of two types is skipped if poison occurs anywhere
in them. The author of a program hears of each mistake once.
-/

set_option autoImplicit false

namespace Rivulet

/-- What the operand rules need to know of a type system. -/
class TypeShape (τ : Type) where
  /-- The type of everything that was rejected. -/
  poison : τ
  int : τ
  bool : τ
  str : τ
  /-- The type of sequences; a sequence of poison is poison. -/
  seq : τ → τ
  /-- The element type of a sequence type. -/
  element? : τ → Option τ
  /-- The parameters and results of a callable type. -/
  callable? : τ → Option (List τ × List τ)
  /-- Whether the type or a component of it is poison. -/
  hasPoison : τ → Bool
  /-- The type as it is shown in messages. -/
  render : τ → String

namespace Typing

/-- The operand a rejection is about. -/
inductive Blame where
  | left
  | right
  | both
deriving DecidableEq

/-- Why the operands of an operator were rejected. -/
inductive OperandFault (τ : Type) where
  /-- The left operand of a map is not a sequence. -/
  | leftRole (found : τ)
  /-- The right operand of a map is not callable. -/
  | rightRole (found : τ)
  /-- The callable of a map does not take one parameter and give one result. -/
  | arity (params results : Nat)
  /-- The callable of a map takes something else than the elements. -/
  | element (param elem : τ)
  /-- The operator has no rule for these operands. -/
  | invalid (lhs rhs : τ)
deriving DecidableEq

namespace OperandFault

variable {τ : Type}

/-- The code under which the fault is reported. -/
def code : OperandFault τ → Code
  | .leftRole _ => .mapLeftRole
  | .rightRole _ => .mapRightRole
  | .arity _ _ => .mapArity
  | .element _ _ => .mapElement
  | .invalid _ _ => .invalidOperands

/-- The operand to which the report points. -/
def blame : OperandFault τ → Blame
  | .leftRole _ => .left
  | .rightRole _ | .arity _ _ | .element _ _ => .right
  | .invalid _ _ => .both

/-- Advice for the author of the program. -/
def help : OperandFault τ → Option String
  | .leftRole _ =>
      some "'|>' applies a function to every element of a sequence such as [1, 2, 3]"
  | .rightRole _ => some "the right side must be a function or closure, e.g. (x -> x * 2)"
  | .arity _ _ =>
      some "wrap the function in a closure taking one element and returning one value"
  | .element _ _ | .invalid _ _ => none

/-- The fault in words, for the operator that is written `symbol`. -/
def message [TypeShape τ] (symbol : String) : OperandFault τ → String
  | .leftRole t =>
      "left operand of '" ++ symbol ++ "' must be a sequence, found '" ++ TypeShape.render t ++ "'"
  | .rightRole t =>
      "right operand of '" ++ symbol ++ "' must be a callable, found '" ++ TypeShape.render t ++ "'"
  | .arity params results =>
      "callable on the right of '" ++ symbol
        ++ "' must take exactly 1 parameter and return exactly 1 result, found "
        ++ toString params ++ " parameter(s) and " ++ toString results ++ " result(s)"
  | .element param elem =>
      "callable on the right of '" ++ symbol ++ "' takes '" ++ TypeShape.render param
        ++ "' but the sequence elements are '" ++ TypeShape.render elem ++ "'"
  | .invalid lhs rhs =>
      "operator '" ++ symbol ++ "' cannot be applied to '" ++ TypeShape.render lhs ++ "' and '"
        ++ TypeShape.render rhs ++ "'"

end OperandFault

variable {τ : Type} [TypeShape τ] [DecidableEq τ]

/-- The type that both operands share, if they do. -/
def commonType? (lhs rhs : τ) : Option τ := if lhs = rhs then some lhs else none

/-- The result of an operator whose operands are both of type `t`, if its rule admits that type. -/
def homogeneous? (rule : OperandRule) (t : τ) : Option τ :=
  match rule with
  | .additive => if t = TypeShape.int ∨ t = TypeShape.str then some t else none
  | .integer => if t = TypeShape.int then some t else none
  | .equality =>
      if t = TypeShape.int ∨ t = TypeShape.bool ∨ t = TypeShape.str then some TypeShape.bool
      else none
  | .ordering =>
      if t = TypeShape.int ∨ t = TypeShape.str then some TypeShape.bool else none
  | .logical => if t = TypeShape.bool then some t else none
  | .map => none

/-- The rule of the map operator. Roles and arity are checked whatever the components are; the
element type is compared only if neither side holds poison. -/
def checkMap (lhs rhs : τ) : Except (OperandFault τ) τ :=
  match TypeShape.element? lhs with
  | none => .error (.leftRole lhs)
  | some element =>
      match TypeShape.callable? rhs with
      | none => .error (.rightRole rhs)
      | some ([param], [result]) =>
          if TypeShape.hasPoison param || TypeShape.hasPoison element then .ok TypeShape.poison
          else if param = element then .ok (TypeShape.seq result)
          else .error (.element param element)
      | some (params, results) => .error (.arity params.length results.length)

/-- Check the operands of a binary operator and give the type of its result. -/
def checkBinary (rule : OperandRule) (lhs rhs : τ) : Except (OperandFault τ) τ :=
  if lhs = TypeShape.poison ∨ rhs = TypeShape.poison then .ok TypeShape.poison
  else if rule = .map then checkMap lhs rhs
  else if TypeShape.hasPoison lhs || TypeShape.hasPoison rhs then .ok TypeShape.poison
  else
    match (commonType? lhs rhs).bind (homogeneous? rule) with
    | some t => .ok t
    | none => .error (.invalid lhs rhs)

end Typing

end Rivulet
