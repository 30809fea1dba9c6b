import Rivulet.Machine.Operation

/-!
# Running intermediate code

The meaning of intermediate code. Operands are evaluated from left to right; `&&` and `||` evaluate
their right operand only if they need it. `bind` gives a local a new cell, so a closure made in an
earlier round of a loop keeps the cell of that round.

Lowered code has no maps. To speak about what lowering keeps, the evaluator is defined on all code,
with two ways to treat a map: to refuse it, as a machine for lowered code does, or to run it directly
(`MapRule`). Direct means: evaluate the sequence, then the callable, read the length, apply the
callable to the elements in order, and collect the results in a new sequence.

Code is run by recursion on the code. Two things go beyond that: a call runs code that is not a part
of the code at hand, and a `while` may go on forever. What they need comes from an `Engine`, which
knows how to call a value and how many rounds a loop may take. The engine of a given time is then
made by recursion on the time: calls made within it have less time.
-/

set_option autoImplicit false

namespace Rivulet.Machine

open Ir

/-- How maps are treated. -/
inductive MapRule where
  | refuse
  | direct
deriving DecidableEq

/-- The code that is run. -/
structure Code where
  /-- The functions; of two definitions of one name the later stands first. -/
  functions : List (String × Function)
  maps : MapRule

/-- The code of a module. -/
def Code.ofModule (m : Module) (maps : MapRule) : Code :=
  ⟨(m.functions.map fun f => (f.name, f)).reverse, maps⟩

/-- Where execution goes after a statement. -/
inductive Flow where
  | next
  | break
  | return (value : Value)

/-- The value of a call whose body ended like this. -/
def Flow.result : Flow → Value
  | .return v => v
  | .next | .break => .unit

/-- What running a piece of code needs from outside. -/
structure Engine where
  maps : MapRule
  /-- Call a value. -/
  call : Value → List Value → Run Value
  /-- The number of rounds that a loop may take. -/
  rounds : Nat

/-- The cells of captured locals. -/
def captureCells (fr : Frame) : List LocalId → Run (List (LocalId × CellAddr))
  | [] => pure []
  | x :: xs => do
      let a ← fr.cell x
      let rest ← captureCells fr xs
      pure ((x, a) :: rest)

/-- The frame of a closure: the captured cells, each local once. -/
def closureCells (env : List (LocalId × CellAddr)) : List (LocalId × CellAddr) :=
  env.foldl (fun cells (x, a) => Frame.setCell x a cells) []

/-! ## Loops -/

/-- Apply a callable to `n` elements of a sequence, from number `i` on. -/
def mapItems (call : Value → List Value → Run Value) (f : Value) (a : SliceAddr) :
    Nat → Nat → Array Value → Run (Array Value)
  | 0, _, done => pure done
  | n + 1, i, done => do
      let v ← Run.readItem a i
      let w ← call f [v]
      mapItems call f a n (i + 1) (done.push w)

/-- Repeat a block as long as a condition holds, for at most the given number of rounds. -/
def whileLoop (condition : Frame → Run Bool) (body : Frame → Run (Flow × Frame)) :
    Nat → Frame → Run (Flow × Frame)
  | 0, _ => Run.exhausted
  | rounds + 1, fr => do
      let b ← condition fr
      if b then
        let (flow, fr) ← body fr
        match flow with
        | .next => whileLoop condition body rounds fr
        | .break => pure (.next, fr)
        | .return v => pure (.return v, fr)
      else pure (.next, fr)

/-- Repeat a block `n` times with a counter that starts at `i`. -/
def forLoop (x : LocalId) (body : Frame → Run (Flow × Frame)) :
    Nat → Int64 → Frame → Run (Flow × Frame)
  | 0, _, fr => pure (.next, fr)
  | n + 1, i, fr => do
      let fr ← fr.bind x (.int i)
      let (flow, fr) ← body fr
      match flow with
      | .next => forLoop x body n (i + 1) fr
      | .break => pure (.next, fr)
      | .return v => pure (.return v, fr)

/-- The number of integers from `first` up to, but not including, `last`. -/
def countBetween (first last : Int64) : Nat := (last.toInt - first.toInt).toNat

/-! ## Expressions and statements -/

mutual

/-- Evaluate an expression. -/
def eval (m : Engine) (fr : Frame) : Expr → Run Value
  | .const c _ =>
      match c with
      | .int n => pure (.int n)
      | .bool b => pure (.bool b)
      | .str s => pure (.str s)
  | .local x _ => fr.read x
  | .function f _ => pure (.func (.function f))
  | .builtin b _ => pure (.func (.builtin b))
  | .unary op e _ => do
      let v ← eval m fr e
      unary op v
  | .binary op l r _ _ i =>
      if op = .map then
        match m.maps with
        | .refuse => Run.stop (.unlowered i.span)
        | .direct => do
            let s ← eval m fr l
            let f ← eval m fr r
            let a ← asSlice s
            let n ← Run.sliceLength a
            let vs ← mapItems m.call f a n 0 #[]
            Run.newSlice vs none
      else if op = .and then do
        let v ← eval m fr l
        let b ← asBool v
        if b then
          let w ← eval m fr r
          let c ← asBool w
          pure (.bool c)
        else pure (.bool false)
      else if op = .or then do
        let v ← eval m fr l
        let b ← asBool v
        if b then pure (.bool true)
        else
          let w ← eval m fr r
          let c ← asBool w
          pure (.bool c)
      else do
        let v ← eval m fr l
        let w ← eval m fr r
        binary op v w
  | .call f as _ => do
      let f ← eval m fr f
      let vs ← evalList m fr as
      m.call f vs
  | .index s p b _ => do
      let s ← eval m fr s
      let p ← eval m fr p
      let i ← asInt p
      let a ← asSlice s
      let n ← Run.sliceLength a
      let k ← position i n b
      Run.readItem a k
  | .len e _ => do
      let v ← eval m fr e
      builtin .len [v]
  | .alloc t e s _ => do
      let v ← eval m fr e
      let n ← asInt v
      allocate t n ⟨s, fr.activation⟩
  | .slice es s _ => do
      let vs ← evalList m fr es
      Run.newSlice vs.toArray (some ⟨s, fr.activation⟩)
  | .closure ps _ cs b _ => do
      let env ← captureCells fr cs
      let i ← Run.newClosure
      pure (.func (.closure i ps b env))
termination_by structural e => e

/-- Evaluate expressions from left to right. -/
def evalList (m : Engine) (fr : Frame) : List Expr → Run (List Value)
  | [] => pure []
  | e :: es => do
      let v ← eval m fr e
      let vs ← evalList m fr es
      pure (v :: vs)
termination_by structural es => es

/-- Execute a statement. The answer is where execution goes on, and the frame behind it. -/
def exec (m : Engine) (fr : Frame) : Stmt → Run (Flow × Frame)
  | .bind x e => do
      let v ← eval m fr e
      let fr ← fr.bind x v
      pure (.next, fr)
  | .assign x e => do
      let v ← eval m fr e
      fr.write x v
      pure (.next, fr)
  | .store s p v b => do
      let s ← eval m fr s
      let p ← eval m fr p
      let v ← eval m fr v
      let a ← asSlice s
      let i ← asInt p
      let n ← Run.sliceLength a
      let k ← position i n b
      Run.writeItem a k v
      pure (.next, fr)
  | .expr e => do
      let _ ← eval m fr e
      pure (.next, fr)
  | .return es => do
      let vs ← evalList m fr es
      pure (.return (returned vs), fr)
  | .if c t e => do
      let v ← eval m fr c
      let b ← asBool v
      if b then execBlock m fr t else execBlock m fr e
  | .while c b =>
      whileLoop
        (fun fr => do
          let v ← eval m fr c
          asBool v)
        (fun fr => execBlock m fr b) m.rounds fr
  | .break => pure (.break, fr)
  | .for x a z b => do
      let v ← eval m fr a
      let first ← asInt v
      let w ← eval m fr z
      let last ← asInt w
      forLoop x (fun fr => execBlock m fr b) (countBetween first last) first fr
termination_by structural s => s

/-- Execute statements until one of them leaves the block. -/
def execBlock (m : Engine) (fr : Frame) : List Stmt → Run (Flow × Frame)
  | [] => pure (.next, fr)
  | s :: ss => do
      let (flow, fr) ← exec m fr s
      match flow with
      | .next => execBlock m fr ss
      | flow => pure (flow, fr)
termination_by structural ss => ss

end

/-! ## Calls -/

/-- Run a body in a new activation, with the given cells and parameters. -/
def activate (m : Engine) (cells : List (LocalId × CellAddr)) (params : List LocalId)
    (body : List Stmt) (args : List Value) : Run Value := do
  let n ← Run.newActivation
  let fr ← (Frame.mk n cells).bindParams params args
  let (flow, _) ← execBlock m fr body
  pure flow.result

namespace Code

/-- Call a function by its name, on a given engine. -/
def callOn (code : Code) (m : Engine) (name : String) (args : List Value) : Run Value :=
  match code.functions.lookup name with
  | some f => activate m [] f.params f.body args
  | none => Run.stop (.noSuchFunction name)

/-- Call a value within the given time. -/
def callValue (code : Code) : Nat → Value → List Value → Run Value
  | 0, _, _ => Run.exhausted
  | time + 1, f, args => do
      let c ← asCallable f
      match c with
      | .function name => code.callOn ⟨code.maps, callValue code time, time⟩ name args
      | .builtin b => builtin b args
      | .closure _ ps b env =>
          activate ⟨code.maps, callValue code time, time⟩ (closureCells env) ps b args

/-- The engine that runs the code within the given time. -/
def engine (code : Code) (time : Nat) : Engine := ⟨code.maps, code.callValue time, time⟩

end Code

/-- Call a function by its name within the given time. -/
def callFunction (code : Code) (time : Nat) (name : String) (args : List Value) : Run Value :=
  code.callOn (code.engine time) name args

end Rivulet.Machine
