import Rivulet.Builtin
import Rivulet.Report
import Rivulet.Typing.Operand

/-!
# Typing faults

The reasons for which a type checker rejects something. Both checkers use this list, over their own
types, so that a mistake has one code and one wording no matter which of them finds it. A fault keeps
the types it is about; what was said of them is a matter of `Fault.message`.

A `Finding` is a fault at a span. The first checker speaks to the author of a program and adds advice
on how to write it; the second one has no program text to advise on.
-/

set_option autoImplicit false

namespace Rivulet.Typing

/-- The place of a value whose type was compared with an expected one. -/
inductive Place where
  | initializer (name : String)
  | assignment (name : String)
  | ifCondition
  | whileCondition
  | sequenceIndex
  | argument (number : Nat)
  | boundValue (name : String)
  | storeIndex
  | storedValue
  | condition
  | rangeStart
  | rangeEnd
  | rangeVariable
  | index
  | allocationLength
deriving DecidableEq

/-- The place in words. -/
def Place.describe : Place → String
  | .initializer x => "initializer of '" ++ x ++ "'"
  | .assignment x => "assignment to '" ++ x ++ "'"
  | .ifCondition => "'if' condition"
  | .whileCondition => "'while' condition"
  | .sequenceIndex => "sequence index"
  | .argument n => "argument " ++ toString n
  | .boundValue x => "value bound to '" ++ x ++ "'"
  | .storeIndex => "store index"
  | .storedValue => "stored value"
  | .condition => "condition"
  | .rangeStart => "range start"
  | .rangeEnd => "range end"
  | .rangeVariable => "range variable"
  | .index => "index"
  | .allocationLength => "allocation length"

/-- Why something was rejected. -/
inductive Fault (τ : Type) where
  -- two types that disagree
  | mismatch (place : Place) (expected found : τ)
  | mixedElements (expected found : τ)
  | returnType (expected found : τ)
  | operands (op : BinaryOp) (fault : OperandFault τ)
  -- one type that does not fit
  | unaryOperand (op : UnaryOp) (found : τ)
  | notCallable (found : τ)
  | notIndexable (found : τ)
  | notStorable (found : τ)
  | notSequence (found : τ)
  | emptyLiteral (found : τ)
  -- numbers that disagree
  | returnCount (expected found : Nat)
  | argumentCount (expected found : Nat)
  | builtinArguments (builtin : Builtin) (found : Nat)
  -- names
  | undefinedSymbol (name : String)
  | undefinedFunction (name : String)
  | undeclared (name : String)
  | constant (name : String)
  | builtinValue (builtin : Builtin)
  -- types that cannot be found out
  | untypedParam (name : String)
  | untypedEmpty
  -- functions
  | functionFallsThrough (name : String)
  | closureFallsThrough
  | mainParams
deriving DecidableEq

namespace Fault

variable {τ : Type}

/-- The code under which a fault is reported. -/
def code : Fault τ → Code
  | .mismatch _ _ _ | .mixedElements _ _ | .notIndexable _ | .notStorable _ | .notSequence _
  | .emptyLiteral _ | .builtinValue _ => .typeMismatch
  | .returnType _ _ | .returnCount _ _ => .returnMismatch
  | .operands _ f => f.code
  | .unaryOperand _ _ => .invalidOperands
  | .notCallable _ => .notCallable
  | .argumentCount _ _ | .builtinArguments _ _ => .argumentCount
  | .undefinedSymbol _ | .undefinedFunction _ | .undeclared _ => .undefinedSymbol
  | .constant _ => .constAssignment
  | .untypedParam _ | .untypedEmpty => .cannotInfer
  | .functionFallsThrough _ | .closureFallsThrough => .missingReturn
  | .mainParams => .invalidMain

/-- The fault in words. -/
def message [TypeShape τ] : Fault τ → String
  | .mismatch place e f =>
      place.describe ++ ": expected '" ++ TypeShape.render e ++ "', found '" ++ TypeShape.render f
        ++ "'"
  | .mixedElements e f =>
      "sequence elements must share one type: expected '" ++ TypeShape.render e ++ "', found '"
        ++ TypeShape.render f ++ "'"
  | .returnType e f =>
      "return type mismatch: expected '" ++ TypeShape.render e ++ "', found '" ++ TypeShape.render f
        ++ "'"
  | .operands op f => f.message op.symbol
  | .unaryOperand op t =>
      "operator '" ++ op.symbol ++ "' cannot be applied to '" ++ TypeShape.render t ++ "'"
  | .notCallable t => "a value of type '" ++ TypeShape.render t ++ "' is not callable"
  | .notIndexable t => "cannot index into a value of type '" ++ TypeShape.render t ++ "'"
  | .notStorable t => "cannot store into a value of type '" ++ TypeShape.render t ++ "'"
  | .notSequence t => "'len' expects a sequence, found '" ++ TypeShape.render t ++ "'"
  | .emptyLiteral t => "empty sequence has non-sequence type '" ++ TypeShape.render t ++ "'"
  | .returnCount e f =>
      "expected " ++ toString e ++ " return value(s), found " ++ toString f
  | .argumentCount e f => "expected " ++ toString e ++ " argument(s), found " ++ toString f
  | .builtinArguments b f => "'" ++ b.name ++ "' expects 1 argument, found " ++ toString f
  | .undefinedSymbol x => "undefined symbol '" ++ x ++ "'"
  | .undefinedFunction x => "undefined function '" ++ x ++ "'"
  | .undeclared x => "cannot assign to undeclared variable '" ++ x ++ "'"
  | .constant x => "cannot assign twice to constant '" ++ x ++ "'"
  | .builtinValue b => "builtin '" ++ b.name ++ "' can only be called directly"
  | .untypedParam x => "cannot infer the type of parameter '" ++ x ++ "'"
  | .untypedEmpty => "cannot infer the element type of an empty sequence"
  | .functionFallsThrough x => "function '" ++ x ++ "' does not return on every path"
  | .closureFallsThrough => "closure does not return on every path"
  | .mainParams => "'main' must not take parameters"

/-- Help that belongs to the rule that was broken. -/
def help : Fault τ → Option String
  | .operands _ f => f.help
  | _ => none

/-- Advice on how to write the program instead. -/
def advice : Fault τ → Option String
  | .constant _ => some "declare it with 'var' to make it mutable"
  | .builtinValue b => some ("wrap it in a closure, e.g. (s -> " ++ b.name ++ "(s))")
  | .untypedParam x => some ("annotate it, e.g. (" ++ x ++ ": int) -> ...")
  | .untypedEmpty => some "write the element type, e.g. []int"
  | .functionFallsThrough _ => some "add a return statement at the end of the function"
  | _ => none

/-- The two types whose disagreement the fault reports, if it reports one. -/
def compared? : Fault τ → Option (τ × τ)
  | .mismatch _ e f | .mixedElements e f | .returnType e f => some (e, f)
  | .operands _ (.element p e) => some (p, e)
  | .operands _ (.invalid l r) => some (l, r)
  | _ => none

end Fault

/-- A fault at a span. -/
structure Finding (τ : Type) where
  fault : Fault τ
  span : Span
  /-- Other expressions that have to do with the fault, and their types. -/
  others : List (Span × τ) := []
deriving DecidableEq

namespace Finding

variable {τ : Type} [TypeShape τ]

/-- The report to the author of a program. -/
def diagnostic (f : Finding τ) : Diagnostic :=
  { code := f.fault.code
    message := f.fault.message
    span := f.span
    labels := f.others.map fun (s, t) => (s, "this has type '" ++ TypeShape.render t ++ "'")
    help := f.fault.help.or f.fault.advice }

/-- The report on code that has no text. -/
def plainDiagnostic (f : Finding τ) : Diagnostic :=
  { code := f.fault.code
    message := f.fault.message
    span := f.span
    help := f.fault.help }

end Finding

/-- Compare a type with an expected one, unless poison occurs in either. The answer says whether
nothing was found wrong. -/
def expect {τ : Type} [TypeShape τ] [DecidableEq τ] (place : Place) (expected found : τ)
    (span : Span) : Report (Finding τ) Bool :=
  if TypeShape.hasPoison expected || TypeShape.hasPoison found || decide (expected = found) then
    pure true
  else do
    Report.tell { fault := .mismatch place expected found, span := span }
    pure false

end Rivulet.Typing
