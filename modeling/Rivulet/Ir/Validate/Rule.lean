import Rivulet.Ir.Tree
import Rivulet.Typing.Fault

/-!
# Typing rules of intermediate code

The type of an expression, derived from the types of its parts. The operators follow the same rules
as in programs; what is rejected has type `invalid`, and nothing is rejected only because a part of
it is `invalid`.
-/

set_option autoImplicit false

namespace Rivulet.Ir.Validate

open Typing (Finding Fault Blame expect)

/-- A result with what was found on the way. -/
abbrev Valid := Report (Finding Ty)

/-- Report a fault and derive `invalid`. -/
def reject (fault : Fault Ty) (span : Span) : Valid Ty := do
  Report.tell { fault := fault, span := span }
  pure .invalid

/-- The functions of a module; of two definitions of one name the later stands first. -/
abbrev Signatures := List (String × Ty)

/-- The type of a constant. -/
def constTy : Const → Ty
  | .int _ => .i64
  | .bool _ => .bool
  | .str _ => .str

/-- The type of a function used as a value. -/
def functionTy (sigs : Signatures) (f : String) (span : Span) : Valid Ty :=
  match sigs.lookup f with
  | some t => pure t
  | none => reject (.undefinedFunction f) span

/-- The type of a builtin used as a value. -/
def builtinTy (b : Builtin) (span : Span) : Valid Ty :=
  match b with
  | .str => pure (.func [.i64] [.str])
  | b => reject (.builtinValue b) span

/-- The type of the operand and of the result of a unary operator. -/
def unaryOperandTy : UnaryOp → Ty
  | .negate => .i64
  | .not => .bool

/-- The type of a unary operator applied to `e`. -/
def unaryTy (op : UnaryOp) (e : Expr) : Valid Ty :=
  if e.ty = .invalid then pure .invalid
  else if e.ty = unaryOperandTy op then pure (unaryOperandTy op)
  else reject (.unaryOperand op e.ty) e.span

/-- The type of a binary operator applied to `l` and `r`. -/
def binaryTy (op : BinaryOp) (l r : Expr) (span : Span) : Valid Ty :=
  match Typing.checkBinary op.rule l.ty r.ty with
  | .ok t => pure t
  | .error f =>
      reject (.operands op f)
        (match f.blame with
        | .left => l.span
        | .right => r.span
        | .both => span)

/-- The common operand type to write on a binary operator of type `t`; where none is derived, the
one that was there stays. -/
def operandTy (op : BinaryOp) (l : Expr) (t : Ty) (old : Option Ty) : Option Ty :=
  if op.rule.isHomogeneous ∧ t ≠ .invalid then some l.ty else old

/-- The type of an element of `s` at the position `p`. -/
def indexTy (s p : Expr) : Valid Ty :=
  if s.ty = .invalid ∨ p.ty = .invalid then pure .invalid
  else
    match s.ty.element? with
    | some t => do
        let ok ← expect .index .i64 p.ty p.span
        pure (if ok then t else .invalid)
    | none => reject (.notIndexable s.ty) s.span

/-- The type of the length of `e`. -/
def lenTy (e : Expr) : Valid Ty :=
  if e.ty = .invalid then pure .invalid
  else
    match e.ty.element? with
    | some _ => pure .i64
    | none => reject (.notSequence e.ty) e.span

/-- The type of an allocation of `n` elements. -/
def allocTy (element : Ty) (n : Expr) : Valid Ty := do
  let ok ← expect .allocationLength .i64 n.ty n.span
  pure (if ok then .sliceOf element else .invalid)

/-- Report the elements whose type differs from that of the first. The answer says whether there
was none. -/
def sameElements (first : Ty) : List Expr → Valid Bool
  | [] => pure true
  | e :: es => do
      if e.ty = first then sameElements first es
      else
        let _ ← reject (.mixedElements first e.ty) e.span
        let _ ← sameElements first es
        pure false

/-- The type of a slice literal. An empty one keeps the type that is written on it. -/
def sliceTy (declared : Ty) (es : List Expr) (span : Span) : Valid Ty :=
  match es with
  | [] =>
      if declared.element? = none ∧ declared ≠ .invalid then reject (.emptyLiteral declared) span
      else pure declared
  | e :: es =>
      if (e :: es).any fun e => e.ty.hasInvalid then pure .invalid
      else do
        let same ← sameElements e.ty es
        pure (if same then .sliceOf e.ty else .invalid)

/-- Compare the arguments from number `n` on with the parameters. The answer says whether nothing
was found wrong. -/
def arguments (n : Nat) : List Expr → List Ty → Valid Bool
  | a :: as, p :: ps => do
      let here ← expect (.argument n) p a.ty a.span
      let there ← arguments (n + 1) as ps
      pure (here && there)
  | _, _ => pure true

/-- The type of a call. -/
def callTy (f : Expr) (as : List Expr) (span : Span) : Valid Ty :=
  match f.ty with
  | .invalid => pure .invalid
  | .func ps rs =>
      if as.length ≠ ps.length then reject (.argumentCount ps.length as.length) span
      else do
        let ok ← arguments 1 as ps
        pure (if ok && !as.any fun a => a.ty.hasInvalid then .ofResults rs else .invalid)
  | t => reject (.notCallable t) f.span

/-- The type of a direct call of `println`, which takes one value of any type. -/
def printTy (as : List Expr) (span : Span) : Valid Ty :=
  if as.length ≠ 1 then reject (.builtinArguments .println as.length) span else pure .unit

/-- The results that returned values stand for. A single call may supply all results at once. -/
def returned (expected : List Ty) (values : List Expr) : List Ty :=
  match values with
  | [v] => if 1 < expected.length then v.ty.toResults else [v.ty]
  | vs => vs.map Expr.ty

/-- The span of a return: that of its first value. -/
def returnSpan (values : List Expr) : Span := (values.head?.map Expr.span).getD .nowhere

/-- Compare returned values with the expected results. -/
def return_ (expected : List Ty) (values : List Expr) : Valid Unit := do
  let found := returned expected values
  let span := returnSpan values
  if found.any Ty.hasInvalid then pure ()
  else if found.length ≠ expected.length then
    Report.tell { fault := .returnCount expected.length found.length, span := span }
  else
    match (expected.zip found).find? fun (e, f) => e ≠ f with
    | some (e, f) => Report.tell { fault := .returnType e f, span := span }
    | none => pure ()

/-- Check a store. -/
def store (s p v : Expr) : Valid Unit := do
  let _ ← expect .storeIndex .i64 p.ty p.span
  match s.ty.element? with
  | some t => do
      let _ ← expect .storedValue t v.ty v.span
      pure ()
  | none =>
      if s.ty = .invalid then pure ()
      else Report.tell { fault := .notStorable s.ty, span := s.span }

/-- Check the value bound to a local. -/
def bound (ctx : Context) (x : LocalId) (e : Expr) : Valid Unit := do
  let _ ← expect (.boundValue (ctx.nameOf x)) (ctx.typeOf x) e.ty e.span
  pure ()

/-- Check a condition. -/
def condition (c : Expr) : Valid Unit := do
  let _ ← expect .condition .bool c.ty c.span
  pure ()

/-- Check the bounds and the counter of a loop. -/
def range (ctx : Context) (x : LocalId) (a z : Expr) : Valid Unit := do
  let _ ← expect .rangeStart .i64 a.ty a.span
  let _ ← expect .rangeEnd .i64 z.ty z.span
  let _ ← expect .rangeVariable .i64 (ctx.typeOf x) a.span
  pure ()

end Rivulet.Ir.Validate
