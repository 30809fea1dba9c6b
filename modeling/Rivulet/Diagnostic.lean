import Rivulet.Span

/-!
# Diagnostics

What the compiler tells the author of a program. A diagnostic has a stable `Code`, a message, the
span it is about, labels on related spans and possibly a line of help. The codes are part of the
contract with the author: the same mistake is reported under the same code, whichever stage of the
compiler finds it.

The stages do not build these records directly. Each has a type of *causes* (a lexical fault, a
syntax failure, a typing fault) which keeps the facts a theorem can speak about, and turns a cause
into a `Diagnostic` at the end.
-/

set_option autoImplicit false

namespace Rivulet

/-- The kinds of mistake that are reported. -/
inductive Code where
  -- the text itself
  | lexical
  | parse
  -- names and types
  | undefinedSymbol
  | typeMismatch
  | argumentCount
  | notCallable
  | cannotInfer
  | returnMismatch
  | invalidOperands
  | constAssignment
  | missingReturn
  | invalidMain
  -- the map operator
  | mapLeftRole
  | mapRightRole
  | mapArity
  | mapElement
deriving DecidableEq

namespace Code

/-- The code as it is printed. -/
def label : Code → String
  | .lexical => "E001"
  | .parse => "E002"
  | .undefinedSymbol => "E100"
  | .typeMismatch => "E101"
  | .argumentCount => "E102"
  | .notCallable => "E103"
  | .cannotInfer => "E104"
  | .returnMismatch => "E105"
  | .invalidOperands => "E106"
  | .constAssignment => "E107"
  | .missingReturn => "E108"
  | .invalidMain => "E109"
  | .mapLeftRole => "E201"
  | .mapRightRole => "E202"
  | .mapArity => "E203"
  | .mapElement => "E204"

/-- The headline of a report. -/
def title : Code → String
  | .lexical => "Lexical Error"
  | .parse => "Parse Error"
  | .undefinedSymbol => "Undefined Symbol"
  | .typeMismatch => "Type Error"
  | .argumentCount => "Wrong Number of Arguments"
  | .notCallable => "Not Callable"
  | .cannotInfer => "Cannot Infer Type"
  | .returnMismatch => "Return Mismatch"
  | .invalidOperands => "Invalid Operands"
  | .constAssignment => "Assignment to Constant"
  | .missingReturn => "Missing Return"
  | .invalidMain => "Invalid Entry Point"
  | .mapLeftRole => "Map Operator: Left Operand Is Not a Sequence"
  | .mapRightRole => "Map Operator: Right Operand Is Not Callable"
  | .mapArity => "Map Operator: Callable Arity Mismatch"
  | .mapElement => "Map Operator: Element Type Mismatch"

end Code

/-- One report to the author of the program. -/
structure Diagnostic where
  code : Code
  message : String
  span : Span
  /-- Related spans, each with a remark. -/
  labels : List (Span × String) := []
  help : Option String := none
deriving DecidableEq

/-- The diagnostic on one line. -/
def Diagnostic.render (d : Diagnostic) : String :=
  "[" ++ d.code.label ++ "] " ++ d.message ++ " at " ++ d.span.render

end Rivulet
