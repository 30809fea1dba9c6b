import Rivulet.Machine.Value

/-!
# The store, and runs on it

All that changes while a program runs is in its `Store`: the cells of locals, the sequences, and the
printed text. Cells and sequences are only added, never removed, so an address stays valid.

Every sequence remembers where it came from: the allocation site and the *activation*, that is, the
call of a function or closure during which it was made. Nothing a program does depends on that; it
is kept to speak about how long sequences live.

A length is a signed word, so no sequence has as many as `Slice.capacity` elements. That is a field of
the sequence itself; what would need more elements does not come about.

A `Run` takes a store and ends with a value, with a fault, or not at all within the given time and
memory. A fault leaves the store as it was when it happened.
-/

set_option autoImplicit false

namespace Rivulet.Machine

open Ir

/-- Where a sequence was made. -/
structure Origin where
  site : Site
  activation : Nat
deriving DecidableEq

/-- The number of elements that no sequence can have: two to the power of 63. -/
def Slice.capacity : Nat := 9223372036854775808

/-- A sequence in the store. -/
structure Slice where
  items : Array Value
  origin : Option Origin
  /-- The length is a word. -/
  fits : items.size < Slice.capacity

/-- The sequence with another value at the position `i`, if that is one of its positions. -/
def Slice.set (sl : Slice) (i : Nat) (v : Value) : Slice :=
  { sl with
    items := sl.items.setIfInBounds i v
    fits := by rw [Array.size_setIfInBounds]; exact sl.fits }

/-- Everything that changes while a program runs. -/
structure Store where
  cells : Array Value := #[]
  slices : Array Slice := #[]
  /-- The number of closures made so far. -/
  closures : Nat := 0
  /-- The number of activations so far. -/
  activations : Nat := 0
  output : String := ""

namespace Store

/-- The elements of a sequence. -/
def items (s : Store) (a : SliceAddr) : List Value :=
  match s.slices[a.index]? with
  | some slice => slice.items.toList
  | none => []

/-- The text of a value. -/
def render (s : Store) (v : Value) : String := v.renderUpTo s.items (s.slices.size + 1)

/-- Whether two values are equal. -/
def same (s : Store) (v w : Value) : Bool := v.sameUpTo s.items (s.slices.size + 1) w

end Store

/-! ## Faults -/

/-- A value of the wrong kind. The values are given by their text. -/
inductive Clash where
  | unaryOperand (found : String)
  | operands (op : BinaryOp) (lhs rhs : String)
  | notIntegerOperator (op : BinaryOp)
  | notInteger (found : String)
  | notBool (found : String)
  | notSequence (found : String)
  | notCallable (found : String)
  | argumentCount (expected found : Nat)
  | builtinArguments (builtin : Builtin) (found : Nat)
deriving DecidableEq

/-- The clash in words. -/
def Clash.describe : Clash → String
  | .unaryOperand v => "bad unary operand " ++ v
  | .operands op l r => "'" ++ op.symbol ++ "' applied to " ++ l ++ " and " ++ r
  | .notIntegerOperator op => "'" ++ op.symbol ++ "' is not an integer operator"
  | .notInteger v => "expected an integer, got " ++ v
  | .notBool v => "expected a boolean, got " ++ v
  | .notSequence v => "expected a sequence, got " ++ v
  | .notCallable v => "cannot call " ++ v
  | .argumentCount e f => "expected " ++ toString e ++ " argument(s), got " ++ toString f
  | .builtinArguments b n => "'" ++ b.name ++ "' applied to " ++ toString n ++ " argument(s)"

/-- Why a run stopped. -/
inductive Fault where
  /-- A map in code that should have been lowered. -/
  | unlowered (span : Span)
  | indexOutOfBounds (index : Int64) (length : Nat)
  /-- A subscript that is not checked was out of bounds. -/
  | elidedOutOfBounds (index : Int64) (length : Nat)
  | divisionByZero
  | noSuchFunction (name : String)
  | unboundLocal (id : LocalId)
  | invalidLength (length : Int64)
  | type (clash : Clash)
deriving DecidableEq

/-- The fault in words. -/
def Fault.message : Fault → String
  | .unlowered s => "'|>' at " ++ s.render ++ " was not lowered"
  | .indexOutOfBounds i n =>
      "index " ++ toString i.toInt ++ " out of bounds for length " ++ toString n
  | .elidedOutOfBounds i n =>
      "unchecked index " ++ toString i.toInt ++ " out of bounds for length " ++ toString n
  | .divisionByZero => "division by zero"
  | .noSuchFunction f => "no function named '" ++ f ++ "'"
  | .unboundLocal x => "local LocalId(" ++ toString x.index ++ ") read before it was bound"
  | .invalidLength n => "cannot allocate " ++ toString n.toInt ++ " elements"
  | .type c => "type error during evaluation: " ++ c.describe

/-! ## Runs -/

/-- How a run ended. -/
inductive Outcome (α : Type) where
  | ok (value : α) (store : Store)
  | fault (fault : Fault) (store : Store)
  /-- The time or the memory was not enough. -/
  | exhausted

/-- A computation on the store. -/
def Run (α : Type) := Store → Outcome α

namespace Run

variable {α β : Type}

/-- A value, without touching the store. -/
@[always_inline, inline]
protected def pure (a : α) : Run α := fun s => .ok a s

/-- One run after the other. -/
@[always_inline, inline]
protected def bind (r : Run α) (f : α → Run β) : Run β := fun s =>
  match r s with
  | .ok a s' => f a s'
  | .fault e s' => .fault e s'
  | .exhausted => .exhausted

instance : Monad Run where
  pure := Run.pure
  bind := Run.bind

@[simp] theorem pure_apply (a : α) (s : Store) : (pure a : Run α) s = .ok a s := rfl

@[simp] theorem bind_apply (r : Run α) (f : α → Run β) (s : Store) :
    (r >>= f) s =
      match r s with
      | .ok a s' => f a s'
      | .fault e s' => .fault e s'
      | .exhausted => .exhausted := rfl

/-- A run that goes on with a value it has computed. -/
theorem bind_apply_of_ok {r : Run α} {f : α → Run β} {s s' : Store} {a : α} (h : r s = .ok a s') :
    (r >>= f) s = f a s' := by rw [bind_apply, h]

/-- A run that stops with the fault of its first part. -/
theorem bind_apply_of_fault {r : Run α} {f : α → Run β} {s s' : Store} {e : Fault}
    (h : r s = .fault e s') : (r >>= f) s = .fault e s' := by rw [bind_apply, h]

instance : LawfulMonad Run := LawfulMonad.mk' _
  (fun r => funext fun s => by
    change (match r s with | .ok a s' => _ | .fault e s' => _ | .exhausted => _) = r s
    cases r s <;> rfl)
  (fun _ _ => rfl)
  (fun r _ _ => funext fun s => by
    simp only [bind_apply]
    cases r s <;> rfl)

/-- Stop with a fault. -/
@[inline]
def stop (f : Fault) : Run α := fun s => .fault f s

/-- Stop because a value is of the wrong kind. -/
@[inline]
def clash (c : Clash) : Run α := stop (.type c)

/-- Out of time or memory. -/
@[inline]
def exhausted : Run α := fun _ => .exhausted

/-- The text of a value. -/
def render (v : Value) : Run String := fun s => .ok (s.render v) s

/-- Whether two values are equal. -/
def same (v w : Value) : Run Bool := fun s => .ok (s.same v w) s

/-- Print a line. -/
def print (text : String) : Run Unit := fun s =>
  .ok () { s with output := s.output ++ text ++ "\n" }

/-- A new cell with a value. -/
@[inline]
def newCell (v : Value) : Run CellAddr := fun s =>
  .ok ⟨s.cells.size⟩ { s with cells := s.cells.push v }

/-- The value in a cell. -/
@[inline]
def readCell (a : CellAddr) : Run Value := fun s => .ok ((s.cells[a.index]?).getD .unit) s

/-- Overwrite a cell. -/
@[inline]
def writeCell (a : CellAddr) (v : Value) : Run Unit := fun s =>
  .ok () { s with cells := s.cells.setIfInBounds a.index v }

/-- A new sequence, if there can be one of this length. -/
def newSlice (items : Array Value) (origin : Option Origin) : Run Value := fun s =>
  if h : items.size < Slice.capacity then
    .ok (.slice ⟨s.slices.size⟩) { s with slices := s.slices.push ⟨items, origin, h⟩ }
  else .exhausted

/-- The length of a sequence. -/
def sliceLength (a : SliceAddr) : Run Nat := fun s =>
  .ok ((s.slices[a.index]?.map fun sl => sl.items.size).getD 0) s

/-- An element of a sequence. -/
def readItem (a : SliceAddr) (i : Nat) : Run Value := fun s =>
  .ok (((s.slices[a.index]?).bind fun sl => sl.items[i]?).getD .unit) s

/-- Overwrite an element of a sequence. -/
def writeItem (a : SliceAddr) (i : Nat) (v : Value) : Run Unit := fun s =>
  .ok ()
    { s with slices := s.slices.modify a.index fun sl => sl.set i v }

/-- The identity of a new closure. -/
def newClosure : Run Nat := fun s => .ok s.closures { s with closures := s.closures + 1 }

/-- The number of a new activation. -/
def newActivation : Run Nat := fun s =>
  .ok s.activations { s with activations := s.activations + 1 }

end Run

/-! ## Frames -/

/-- The locals of an activation and their cells. -/
structure Frame where
  activation : Nat
  cells : List (LocalId × CellAddr)

namespace Frame

/-- Set the cell of a local in a list of cells. -/
def setCell (x : LocalId) (a : CellAddr) : List (LocalId × CellAddr) → List (LocalId × CellAddr)
  | [] => [(x, a)]
  | (y, b) :: rest => if y = x then (x, a) :: rest else (y, b) :: setCell x a rest

/-- The cell of a local. -/
@[inline]
def cell (fr : Frame) (x : LocalId) : Run CellAddr :=
  match fr.cells.lookup x with
  | some a => pure a
  | none => Run.stop (.unboundLocal x)

/-- The value of a local. -/
def read (fr : Frame) (x : LocalId) : Run Value := do
  let a ← fr.cell x
  Run.readCell a

/-- Overwrite the value of a local. -/
def write (fr : Frame) (x : LocalId) (v : Value) : Run Unit := do
  let a ← fr.cell x
  Run.writeCell a v

/-- Bind a local to a new cell. -/
def bind (fr : Frame) (x : LocalId) (v : Value) : Run Frame := do
  let a ← Run.newCell v
  pure { fr with cells := setCell x a fr.cells }

/-- Bind locals to new cells, one after the other. -/
def bindAll (fr : Frame) : List LocalId → List Value → Run Frame
  | x :: xs, v :: vs => do
      let fr ← fr.bind x v
      fr.bindAll xs vs
  | _, _ => pure fr

/-- Bind parameters to arguments. -/
def bindParams (fr : Frame) (params : List LocalId) (args : List Value) : Run Frame :=
  if params.length = args.length then fr.bindAll params args
  else Run.clash (.argumentCount params.length args.length)

end Frame

end Rivulet.Machine
