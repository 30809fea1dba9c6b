import Rivulet.Ir.Ty

/-!
# Broken contracts between stages

A stage relies on what the stages before it promise: code is generated only from programs without
faults, and maps are lowered only after their facts were recorded. If a promise is broken, the stage
gives up with a `Breach`. This is not the fault of the author of the program.
-/

set_option autoImplicit false

namespace Rivulet.Ir

/-- What was broken. -/
inductive Breach.Cause where
  /-- A poisoned type reached the code. -/
  | poisonedType
  /-- An expression that was rejected reached the code. -/
  | errorExpr
  /-- The operands of an operator have no common type. -/
  | noCommonType (op : BinaryOp)
  /-- A local is not in scope. -/
  | unresolvedLocal (name : String)
  /-- A map carries no facts. -/
  | mapWithoutFacts
  /-- A map does not have the type of a sequence. -/
  | mapType (ty : Ty)
  /-- The left operand of a map does not have the type of a sequence. -/
  | mapOperand (ty : Ty)
deriving DecidableEq

/-- A broken contract, and where it was noticed. -/
structure Breach where
  cause : Breach.Cause
  span : Span
deriving DecidableEq

namespace Breach

/-- Whether the breach is about a name rather than about the shape of the code. -/
def isUnresolved (b : Breach) : Bool :=
  match b.cause with
  | .unresolvedLocal _ => true
  | _ => false

/-- The cause in words. -/
def Cause.describe : Cause → String
  | .poisonedType => "poisoned type reached IR translation"
  | .errorExpr => "error expression reached IR translation"
  | .noCommonType op => "operands of '" ++ op.symbol ++ "' have no common type"
  | .unresolvedLocal x => "unresolved local '" ++ x ++ "'"
  | .mapWithoutFacts => "'|>' reached lowering without escape metadata"
  | .mapType t => "'|>' has type '" ++ t.render ++ "' instead of a sequence"
  | .mapOperand t => "left operand of '|>' has type '" ++ t.render ++ "'"

/-- The breach in words. -/
def message (b : Breach) : String :=
  if b.isUnresolved then b.cause.describe ++ " at " ++ b.span.render
  else "internal invariant violated at " ++ b.span.render ++ ": " ++ b.cause.describe

end Breach

/-- The type of the code for values of a type of the language. -/
def Ty.ofTy (t : Rivulet.Ty) (span : Span) : Except Breach Ty :=
  match Ty.ofTy? t with
  | some t => .ok t
  | none => .error ⟨.poisonedType, span⟩

/-- The types of the code for several types of the language. -/
def Ty.ofTys (ts : List Rivulet.Ty) (span : Span) : Except Breach (List Ty) :=
  match Ty.ofTys? ts with
  | some ts => .ok ts
  | none => .error ⟨.poisonedType, span⟩

end Rivulet.Ir
