import Rivulet.Machine.Store

/-!
# Operations on values

What operators and builtins do. Integers are signed 64-bit words and all arithmetic on them wraps
around; division truncates toward zero. A power has the value zero unless its exponent lies between
zero and `2 ^ 32 - 1`.
-/

set_option autoImplicit false

namespace Rivulet.Machine

open Ir

/-! ## Words -/

namespace Word

/-- The power of a word, by repeated squaring. -/
def pow (a : Int64) (n : Nat) : Int64 :=
  if n = 0 then 1
  else
    let half := pow (a * a) (n / 2)
    if n % 2 = 1 then a * half else half
termination_by n

/-- The number of exponents: two to the power of 32. -/
def exponents : Int := 4294967296

/-- The power of a word to a word. -/
def power (a b : Int64) : Int64 :=
  if 0 ≤ b.toInt ∧ b.toInt < exponents then pow a b.toInt.toNat else 0

/-- A binary operator on integers. -/
def binary (op : BinaryOp) (a b : Int64) : Except Fault Value :=
  match op with
  | .add => .ok (.int (a + b))
  | .sub => .ok (.int (a - b))
  | .mul => .ok (.int (a * b))
  | .div => if b = 0 then .error .divisionByZero else .ok (.int (a / b))
  | .mod => if b = 0 then .error .divisionByZero else .ok (.int (a % b))
  | .pow => .ok (.int (power a b))
  | .bitAnd => .ok (.int (a &&& b))
  | .bitOr => .ok (.int (a ||| b))
  | .bitXor => .ok (.int (a ^^^ b))
  | .lt => .ok (.bool (a < b))
  | .gt => .ok (.bool (b < a))
  | .ltEq => .ok (.bool (a ≤ b))
  | .gtEq => .ok (.bool (b ≤ a))
  | .eq => .ok (.bool (a == b))
  | .notEq => .ok (.bool (a != b))
  | op => .error (.type (.notIntegerOperator op))

end Word

/-! ## Kinds of values -/

/-- The integer that a value is. -/
def asInt : Value → Run Int64
  | .int n => pure n
  | v => do
      let text ← Run.render v
      Run.clash (.notInteger text)

/-- The truth value that a value is. -/
def asBool : Value → Run Bool
  | .bool b => pure b
  | v => do
      let text ← Run.render v
      Run.clash (.notBool text)

/-- The sequence that a value is. -/
def asSlice : Value → Run SliceAddr
  | .slice a => pure a
  | v => do
      let text ← Run.render v
      Run.clash (.notSequence text)

/-- The callable that a value is. -/
def asCallable : Value → Run Callable
  | .func c => pure c
  | v => do
      let text ← Run.render v
      Run.clash (.notCallable text)

/-! ## Operators -/

/-- A unary operator. -/
def unary (op : UnaryOp) (v : Value) : Run Value :=
  match op, v with
  | .not, .bool b => pure (.bool !b)
  | .negate, .int n => pure (.int (-n))
  | _, v => do
      let text ← Run.render v
      Run.clash (.unaryOperand text)

/-- A binary operator on strings. Strings are ordered by their code points. -/
def strings? (op : BinaryOp) (a b : String) : Option Value :=
  match op with
  | .add => some (.str (a ++ b))
  | .lt => some (.bool (a < b))
  | .gt => some (.bool (b < a))
  | .ltEq => some (.bool !(b < a))
  | .gtEq => some (.bool !(a < b))
  | _ => none

/-- An operator that has no meaning for its operands. -/
def badOperands (op : BinaryOp) (l r : Value) : Run Value := do
  let lhs ← Run.render l
  let rhs ← Run.render r
  Run.clash (.operands op lhs rhs)

/-- A binary operator on two values that have been computed. Any two values can be compared for
equality. -/
def binary (op : BinaryOp) (l r : Value) : Run Value :=
  if op = .eq then do
    let same ← Run.same l r
    pure (.bool same)
  else if op = .notEq then do
    let same ← Run.same l r
    pure (.bool !same)
  else
    match l, r with
    | .int a, .int b =>
        match Word.binary op a b with
        | .ok v => pure v
        | .error f => Run.stop f
    | .str a, .str b =>
        match strings? op a b with
        | some v => pure v
        | none => badOperands op l r
    | _, _ => badOperands op l r

/-! ## Sequences -/

/-- The position that a subscript means in a sequence of the given length. -/
def position (i : Int64) (length : Nat) (b : Bounds) : Run Nat :=
  if 0 ≤ i.toInt ∧ i.toInt.toNat < length then pure i.toInt.toNat
  else
    match b with
    | .checked => Run.stop (.indexOutOfBounds i length)
    | .elided => Run.stop (.elidedOutOfBounds i length)

mutual

/-- The value with which an allocation is filled. -/
def zero : Ir.Ty → Run Value
  | .i64 => pure (.int 0)
  | .bool => pure (.bool false)
  | .str => pure (.str "")
  | .slice _ => Run.newSlice #[] none
  | .tuple ts => do
      let vs ← zeros ts
      pure (.tuple vs)
  | .func _ _ | .unit | .invalid => pure .unit
termination_by structural t => t

/-- The values with which allocations are filled. -/
def zeros : List Ir.Ty → Run (List Value)
  | [] => pure []
  | t :: ts => do
      let v ← zero t
      let vs ← zeros ts
      pure (v :: vs)
termination_by structural ts => ts

end

/-- Add `n` zero values of a type to an array. -/
def fill (t : Ir.Ty) : Nat → Array Value → Run (Array Value)
  | 0, vs => pure vs
  | n + 1, vs => do
      let v ← zero t
      fill t n (vs.push v)

/-- Allocate a sequence of zero values. -/
def allocate (t : Ir.Ty) (length : Int64) (origin : Origin) : Run Value :=
  if length.toInt < 0 then Run.stop (.invalidLength length)
  else do
    let vs ← fill t length.toInt.toNat #[]
    Run.newSlice vs (some origin)

/-! ## Builtins -/

/-- Call a builtin. The length of a string counts its bytes. -/
def builtin (b : Builtin) (args : List Value) : Run Value :=
  match b, args with
  | .println, [v] => do
      let text ← Run.render v
      Run.print text
      pure .unit
  | .str, [.int n] => pure (.str (toString n.toInt))
  | .len, [.slice a] => do
      let n ← Run.sliceLength a
      pure (.int (Int64.ofNat n))
  | .len, [.str s] => pure (.int (Int64.ofNat s.utf8ByteSize))
  | b, args => Run.clash (.builtinArguments b args.length)

/-- The value of a return. -/
def returned : List Value → Value
  | [] => .unit
  | [v] => v
  | vs => .tuple vs

end Rivulet.Machine
