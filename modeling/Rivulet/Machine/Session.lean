import Rivulet.Machine.Eval

/-!
# Sessions

A session calls the functions of one module, one call after the other. Arguments come from outside
and are trees; a call gets its own store, into which its arguments are loaded. All that a call leaves
to the next one is the printed text, also if it ended with a fault.
-/

set_option autoImplicit false

namespace Rivulet.Machine

open Ir

/-! ## Arguments -/

mutual

/-- Load a value from outside into the store. -/
def Datum.load : Datum → Run Value
  | .unit => pure .unit
  | .int n => pure (.int n)
  | .bool b => pure (.bool b)
  | .str s => pure (.str s)
  | .list ds => do
      let vs ← Datum.loadList ds
      Run.newSlice vs.toArray none
  | .tuple ds => do
      let vs ← Datum.loadList ds
      pure (.tuple vs)
  | .function f => pure (.func (.function f))
  | .builtin b => pure (.func (.builtin b))
termination_by structural d => d

/-- Load values from outside into the store. -/
def Datum.loadList : List Datum → Run (List Value)
  | [] => pure []
  | d :: ds => do
      let v ← d.load
      let vs ← Datum.loadList ds
      pure (v :: vs)
termination_by structural ds => ds

end

/-! ## Calls -/

/-- The text that had been printed when a run ended. -/
def Outcome.output? {α : Type} : Outcome α → Option String
  | .ok _ s => some s.output
  | .fault _ s => some s.output
  | .exhausted => none

/-- A module that is being run, and what it has printed so far. -/
structure Session where
  code : Code
  output : String := ""

namespace Session

/-- A session that runs lowered code. -/
def ofModule (m : Module) : Session := { code := Code.ofModule m .refuse }

/-- Call a function. -/
def call (time : Nat) (s : Session) (name : String) (args : List Datum) : Outcome Value :=
  let run : Run Value := do
    let vs ← Datum.loadList args
    callFunction s.code time name vs
  run { output := s.output }

/-- The session after a call that ended like this. -/
def after {α : Type} (s : Session) (o : Outcome α) : Session :=
  { s with output := o.output?.getD s.output }

/-- Make several calls, one after the other. A fault ends its own call only. -/
def callAll (time : Nat) (s : Session) : List (String × List Datum) → List (Outcome Value)
  | [] => []
  | (name, args) :: calls =>
      let o := s.call time name args
      o :: callAll time (s.after o) calls

/-- Run the program: call its function `main`. -/
def runMain (time : Nat) (s : Session) : Outcome Value := s.call time "main" []

end Session

/-- More time than any run can use up in practice: two to the power of 62. -/
def ampleTime : Nat := 4611686018427387904

end Rivulet.Machine
