import Rivulet.Proofs.Code.Nesting
import Rivulet.Proofs.Machine.Operations

set_option autoImplicit false

/-! # What a run binds and reads

To speak about everything that happens to a binding in the course of a run, lowered code is run once
more, by an evaluator that also keeps a record: which cell each `bind` statement gave to its local
and with which value, and which value each reading of a local found in which cell. The record is
kept also of what a run did before it stopped with a fault or ran out of time.

Apart from the record, the two evaluators do the same (`callTraced_run`, `Session.callTraced_run`),
so what is proved about records is about the runs themselves. -/

namespace Rivulet.Machine

open Ir

/-! ## Runs with a record -/

/-- Something that happened to a cell. -/
inductive Event where
  /-- A `bind` statement in an activation of `body` gave a local this new cell. -/
  | bound (body : List Stmt) (x : LocalId) (cell : CellAddr) (value : Value)
  /-- A local was read, and this was found in its cell. -/
  | read (x : LocalId) (cell : CellAddr) (value : Value)

/-- A computation on the store, with a record of what happened. -/
def Traced (α : Type) := Store → List Event × Outcome α

namespace Traced

variable {α β : Type}

/-- The computation without the record. -/
def run (r : Traced α) : Run α := fun s => (r s).2

/-- A computation of which there is nothing to record. -/
def ofRun (r : Run α) : Traced α := fun s => ([], r s)

/-- Record an event. -/
def tell (e : Event) : Traced Unit := fun s => ([e], .ok () s)

/-- One computation after the other; the record of the second comes behind that of the first. -/
protected def bind (r : Traced α) (f : α → Traced β) : Traced β := fun s =>
  match r s with
  | (es, .ok a s') => (es ++ (f a s').1, (f a s').2)
  | (es, .fault e s') => (es, .fault e s')
  | (es, .exhausted) => (es, .exhausted)

instance : Monad Traced where
  pure a := ofRun (pure a)
  bind := Traced.bind

instance : MonadLift Run Traced := ⟨ofRun⟩

/-- A computation that goes on with a value it has computed. -/
theorem bind_apply_of_ok {r : Traced α} {f : α → Traced β} {s s' : Store} {es : List Event} {a : α}
    (h : r s = (es, .ok a s')) : (r >>= f) s = (es ++ (f a s').1, (f a s').2) := by
  change Traced.bind r f s = _
  rw [Traced.bind, h]

@[simp] theorem run_pure (a : α) : (pure a : Traced α).run = pure a := rfl

@[simp] theorem run_liftM (r : Run α) : (liftM r : Traced α).run = r := rfl

@[simp] theorem run_tell (e : Event) : (tell e).run = pure () := rfl

/-- Leaving out the record commutes with sequencing. -/
@[simp] theorem run_bind (r : Traced α) (f : α → Traced β) :
    (r >>= f).run = r.run >>= fun a => (f a).run := by
  funext s
  change (Traced.bind r f s).2 = _
  rw [Run.bind_apply, run, Traced.bind]
  cases r s with
  | mk es o => cases o <;> rfl

end Traced

/-! ## The evaluator with a record -/

/-- What running a piece of lowered code needs from outside. -/
structure TracedEngine where
  call : Value → List Value → Traced Value
  rounds : Nat

/-- The engine without the record. -/
def TracedEngine.plain (m : TracedEngine) : Engine :=
  ⟨.refuse, fun f vs => (m.call f vs).run, m.rounds⟩

/-- Read a local. -/
def Frame.readTraced (fr : Frame) (x : LocalId) : Traced Value := do
  let a ← fr.cell x
  let v ← Run.readCell a
  Traced.tell (.read x a v)
  pure v

/-- Bind a local to a new cell, in an activation of `body`. -/
def Frame.bindTraced (body : List Stmt) (fr : Frame) (x : LocalId) (v : Value) : Traced Frame := do
  let a ← Run.newCell v
  Traced.tell (.bound body x a v)
  pure { fr with cells := Frame.setCell x a fr.cells }

/-- Repeat a block as long as a condition holds. -/
def whileLoopTraced (condition : Frame → Traced Bool) (block : Frame → Traced (Flow × Frame)) :
    Nat → Frame → Traced (Flow × Frame)
  | 0, _ => Traced.ofRun Run.exhausted
  | rounds + 1, fr => do
      let b ← condition fr
      if b then
        let (flow, fr) ← block fr
        match flow with
        | .next => whileLoopTraced condition block rounds fr
        | .break => pure (.next, fr)
        | .return v => pure (.return v, fr)
      else pure (.next, fr)

/-- Repeat a block with a counter. -/
def forLoopTraced (x : LocalId) (block : Frame → Traced (Flow × Frame)) :
    Nat → Int64 → Frame → Traced (Flow × Frame)
  | 0, _, fr => pure (.next, fr)
  | n + 1, i, fr => do
      let fr ← fr.bind x (.int i)
      let (flow, fr) ← block fr
      match flow with
      | .next => forLoopTraced x block n (i + 1) fr
      | .break => pure (.next, fr)
      | .return v => pure (.return v, fr)

mutual

/-- Evaluate an expression. -/
def evalTraced (m : TracedEngine) (fr : Frame) : Expr → Traced Value
  | .const c _ =>
      match c with
      | .int n => pure (.int n)
      | .bool b => pure (.bool b)
      | .str s => pure (.str s)
  | .local x _ => fr.readTraced x
  | .function f _ => pure (.func (.function f))
  | .builtin b _ => pure (.func (.builtin b))
  | .unary op e _ => do
      let v ← evalTraced m fr e
      unary op v
  | .binary op l r _ _ i =>
      if op = .map then Traced.ofRun (Run.stop (.unlowered i.span))
      else if op = .and then do
        let v ← evalTraced m fr l
        let b ← asBool v
        if b then
          let w ← evalTraced m fr r
          let c ← asBool w
          pure (.bool c)
        else pure (.bool false)
      else if op = .or then do
        let v ← evalTraced m fr l
        let b ← asBool v
        if b then pure (.bool true)
        else
          let w ← evalTraced m fr r
          let c ← asBool w
          pure (.bool c)
      else do
        let v ← evalTraced m fr l
        let w ← evalTraced m fr r
        binary op v w
  | .call f as _ => do
      let f ← evalTraced m fr f
      let vs ← evalListTraced m fr as
      m.call f vs
  | .index s p b _ => do
      let s ← evalTraced m fr s
      let p ← evalTraced m fr p
      let i ← asInt p
      let a ← asSlice s
      let n ← Run.sliceLength a
      let k ← position i n b
      Run.readItem a k
  | .len e _ => do
      let v ← evalTraced m fr e
      builtin .len [v]
  | .alloc t e s _ => do
      let v ← evalTraced m fr e
      let n ← asInt v
      allocate t n ⟨s, fr.activation⟩
  | .slice es s _ => do
      let vs ← evalListTraced m fr es
      Run.newSlice vs.toArray (some ⟨s, fr.activation⟩)
  | .closure ps _ cs b _ => do
      let env ← captureCells fr cs
      let i ← Run.newClosure
      pure (.func (.closure i ps b env))
termination_by structural e => e

/-- Evaluate expressions from left to right. -/
def evalListTraced (m : TracedEngine) (fr : Frame) : List Expr → Traced (List Value)
  | [] => pure []
  | e :: es => do
      let v ← evalTraced m fr e
      let vs ← evalListTraced m fr es
      pure (v :: vs)
termination_by structural es => es

/-- Execute a statement in an activation of `body`. -/
def execTraced (m : TracedEngine) (body : List Stmt) (fr : Frame) : Stmt → Traced (Flow × Frame)
  | .bind x e => do
      let v ← evalTraced m fr e
      let fr ← fr.bindTraced body x v
      pure (.next, fr)
  | .assign x e => do
      let v ← evalTraced m fr e
      fr.write x v
      pure (.next, fr)
  | .store s p v b => do
      let s ← evalTraced m fr s
      let p ← evalTraced m fr p
      let v ← evalTraced m fr v
      let a ← asSlice s
      let i ← asInt p
      let n ← Run.sliceLength a
      let k ← position i n b
      Run.writeItem a k v
      pure (.next, fr)
  | .expr e => do
      let _ ← evalTraced m fr e
      pure (.next, fr)
  | .return es => do
      let vs ← evalListTraced m fr es
      pure (.return (returned vs), fr)
  | .if c t e => do
      let v ← evalTraced m fr c
      let b ← asBool v
      if b then execBlockTraced m body fr t else execBlockTraced m body fr e
  | .while c b =>
      whileLoopTraced
        (fun fr => do
          let v ← evalTraced m fr c
          asBool v)
        (fun fr => execBlockTraced m body fr b) m.rounds fr
  | .break => pure (.break, fr)
  | .for x a z b => do
      let v ← evalTraced m fr a
      let first ← asInt v
      let w ← evalTraced m fr z
      let last ← asInt w
      forLoopTraced x (fun fr => execBlockTraced m body fr b) (countBetween first last) first fr
termination_by structural s => s

/-- Execute statements until one of them leaves the block. -/
def execBlockTraced (m : TracedEngine) (body : List Stmt) (fr : Frame) :
    List Stmt → Traced (Flow × Frame)
  | [] => pure (.next, fr)
  | s :: ss => do
      let (flow, fr) ← execTraced m body fr s
      match flow with
      | .next => execBlockTraced m body fr ss
      | flow => pure (flow, fr)
termination_by structural ss => ss

end

/-- Run a body in a new activation. -/
def activateTraced (m : TracedEngine) (cells : List (LocalId × CellAddr)) (params : List LocalId)
    (body : List Stmt) (args : List Value) : Traced Value := do
  let n ← Run.newActivation
  let fr ← (Frame.mk n cells).bindParams params args
  let (flow, _) ← execBlockTraced m body fr body
  pure flow.result

namespace Code

/-- Call a function by its name. -/
def callOnTraced (code : Code) (m : TracedEngine) (name : String) (args : List Value) :
    Traced Value :=
  match code.functions.lookup name with
  | some f => activateTraced m [] f.params f.body args
  | none => Traced.ofRun (Run.stop (.noSuchFunction name))

/-- Call a value within the given time. -/
def callValueTraced (code : Code) : Nat → Value → List Value → Traced Value
  | 0, _, _ => Traced.ofRun Run.exhausted
  | time + 1, f, args => do
      let c ← asCallable f
      match c with
      | .function name => code.callOnTraced ⟨callValueTraced code time, time⟩ name args
      | .builtin b => builtin b args
      | .closure _ ps b env =>
          activateTraced ⟨callValueTraced code time, time⟩ (closureCells env) ps b args

end Code

/-- Call a function of lowered code by its name. -/
def callTraced (code : Code) (time : Nat) (name : String) (args : List Value) : Traced Value :=
  code.callOnTraced ⟨code.callValueTraced time, time⟩ name args

/-- Call a function in a session. -/
def Session.callTraced (time : Nat) (s : Session) (name : String) (args : List Datum) :
    List Event × Outcome Value :=
  let run : Traced Value := do
    let vs ← Datum.loadList args
    Machine.callTraced s.code time name vs
  run { output := s.output }

/-! ## The record changes nothing -/

section Plain

theorem Frame.run_readTraced (fr : Frame) (x : LocalId) : (fr.readTraced x).run = fr.read x := by
  simp [Frame.readTraced, Frame.read]

theorem Frame.run_bindTraced (body : List Stmt) (fr : Frame) (x : LocalId) (v : Value) :
    (fr.bindTraced body x v).run = fr.bind x v := by
  simp [Frame.bindTraced, Frame.bind]

theorem run_whileLoopTraced {condition : Frame → Traced Bool}
    {block : Frame → Traced (Flow × Frame)} (n : Nat) (fr : Frame) :
    (whileLoopTraced condition block n fr).run
      = whileLoop (fun fr => (condition fr).run) (fun fr => (block fr).run) n fr := by
  induction n generalizing fr with
  | zero => rfl
  | succ n ih =>
      simp only [whileLoopTraced, whileLoop, Traced.run_bind]
      congr 1
      funext b
      cases b with
      | false => rfl
      | true =>
          simp only [if_true, Traced.run_bind]
          congr 1
          funext p
          obtain ⟨flow, fr⟩ := p
          cases flow with
          | next => exact ih fr
          | _ => rfl

theorem run_forLoopTraced (x : LocalId) {block : Frame → Traced (Flow × Frame)} (n : Nat)
    (i : Int64) (fr : Frame) :
    (forLoopTraced x block n i fr).run = forLoop x (fun fr => (block fr).run) n i fr := by
  induction n generalizing i fr with
  | zero => rfl
  | succ n ih =>
      simp only [forLoopTraced, forLoop, Traced.run_bind, Traced.run_liftM]
      congr 1
      funext fr
      congr 1
      funext p
      obtain ⟨flow, fr⟩ := p
      cases flow with
      | next => exact ih (i + 1) fr
      | _ => rfl

variable (m : TracedEngine)

/-- What `&&` and `||` do in a recorded run (see `eval_logical`). -/
theorem evalTraced_logical {op : BinaryOp} (hop : op = .and ∨ op = .or) (fr : Frame) (l r : Expr)
    (common : Option Ir.Ty) (facts : Option MapFacts) (i : Info) :
    evalTraced m fr (.binary op l r common facts i) = (do
      let v ← evalTraced m fr l
      let b ← asBool v
      if needsRight op b then
        let w ← evalTraced m fr r
        let c ← asBool w
        pure (.bool c)
      else pure (.bool b)) := by
  rcases hop with rfl | rfl
  · simp only [evalTraced, reduceCtorEq, if_false, if_true, needsRight]
    refine bind_congr fun v => bind_congr fun b => ?_
    cases b <;> rfl
  · simp only [evalTraced, reduceCtorEq, if_false, if_true, needsRight]
    refine bind_congr fun v => bind_congr fun b => ?_
    cases b <;> rfl

/-- What all other operators do in a recorded run. -/
theorem evalTraced_operator {op : BinaryOp} (hmap : op ≠ .map) (hop : ¬ (op = .and ∨ op = .or))
    (fr : Frame) (l r : Expr) (common : Option Ir.Ty) (facts : Option MapFacts) (i : Info) :
    evalTraced m fr (.binary op l r common facts i) = (do
      let v ← evalTraced m fr l
      let w ← evalTraced m fr r
      binary op v w) := by
  rw [not_or] at hop
  simp only [evalTraced, if_neg hmap, if_neg hop.1, if_neg hop.2]

mutual

theorem run_evalTraced (fr : Frame) : ∀ e : Expr, (evalTraced m fr e).run = eval m.plain fr e
  | .const c _ => by cases c <;> rfl
  | .local x _ => fr.run_readTraced x
  | .function _ _ | .builtin _ _ => rfl
  | .unary _ e _ | .len e _ | .alloc _ e _ _ => by
      simp only [evalTraced, eval, Traced.run_bind, Traced.run_liftM, run_evalTraced fr e]
  | .binary op l r _ _ i => by
      by_cases hmap : op = .map
      · simp only [evalTraced, eval, if_pos hmap]
        rfl
      by_cases hlogic : op = .and ∨ op = .or
      · simp only [evalTraced_logical m hlogic, eval_logical hlogic, Traced.run_bind,
          Traced.run_liftM, run_evalTraced fr l]
        refine bind_congr fun v => bind_congr fun b => ?_
        cases needsRight op b with
        | false => rfl
        | true => simp [run_evalTraced fr r]
      · simp only [evalTraced_operator m hmap hlogic, eval_operator hmap hlogic, Traced.run_bind,
          Traced.run_liftM, run_evalTraced fr l, run_evalTraced fr r]
  | .call f as _ => by
      simp only [evalTraced, eval, Traced.run_bind, run_evalTraced fr f, run_evalListTraced fr as]
      rfl
  | .index s p _ _ => by
      simp only [evalTraced, eval, Traced.run_bind, Traced.run_liftM, run_evalTraced fr s,
        run_evalTraced fr p]
  | .slice es _ _ => by
      simp only [evalTraced, eval, Traced.run_bind, Traced.run_liftM, run_evalListTraced fr es]
  | .closure _ _ cs _ _ => by
      simp only [evalTraced, eval, Traced.run_bind, Traced.run_liftM, Traced.run_pure]

theorem run_evalListTraced (fr : Frame) : ∀ es : List Expr,
    (evalListTraced m fr es).run = evalList m.plain fr es
  | [] => rfl
  | e :: es => by
      simp only [evalListTraced, evalList, Traced.run_bind, Traced.run_pure, run_evalTraced fr e,
        run_evalListTraced fr es]

end

mutual

theorem run_execTraced (body : List Stmt) : ∀ (s : Stmt) (fr : Frame),
    (execTraced m body fr s).run = exec m.plain fr s
  | .bind x e, fr => by
      simp only [execTraced, exec, Traced.run_bind, Traced.run_pure, run_evalTraced m fr e,
        Frame.run_bindTraced]
  | .assign x e, fr => by
      simp only [execTraced, exec, Traced.run_bind, Traced.run_liftM, Traced.run_pure,
        run_evalTraced m fr e]
  | .store s p v _, fr => by
      simp only [execTraced, exec, Traced.run_bind, Traced.run_liftM, Traced.run_pure,
        run_evalTraced m fr s, run_evalTraced m fr p, run_evalTraced m fr v]
  | .expr e, fr => by
      simp only [execTraced, exec, Traced.run_bind, Traced.run_pure, run_evalTraced m fr e]
  | .return es, fr => by
      simp only [execTraced, exec, Traced.run_bind, Traced.run_pure, run_evalListTraced m fr es]
  | .if c t e, fr => by
      simp only [execTraced, exec, Traced.run_bind, Traced.run_liftM, run_evalTraced m fr c]
      congr 1
      funext v
      congr 1
      funext b
      cases b with
      | true => exact run_execBlockTraced body t fr
      | false => exact run_execBlockTraced body e fr
  | .while c b, fr => by
      simp only [execTraced, exec, run_whileLoopTraced, Traced.run_bind, Traced.run_liftM,
        run_evalTraced m, run_execBlockTraced body b]
      rfl
  | .break, fr => rfl
  | .for x a z b, fr => by
      simp only [execTraced, exec, Traced.run_bind, Traced.run_liftM, run_evalTraced m fr a,
        run_evalTraced m fr z, run_forLoopTraced, run_execBlockTraced body b]

theorem run_execBlockTraced (body : List Stmt) : ∀ (ss : List Stmt) (fr : Frame),
    (execBlockTraced m body fr ss).run = execBlock m.plain fr ss
  | [], fr => rfl
  | s :: ss, fr => by
      simp only [execBlockTraced, execBlock, Traced.run_bind, run_execTraced body s fr]
      congr 1
      funext p
      obtain ⟨flow, fr⟩ := p
      cases flow with
      | next => exact run_execBlockTraced body ss fr
      | _ => rfl

end

theorem run_activateTraced (cells : List (LocalId × CellAddr)) (params : List LocalId)
    (body : List Stmt) (args : List Value) :
    (activateTraced m cells params body args).run = activate m.plain cells params body args := by
  simp only [activateTraced, activate, Traced.run_bind, Traced.run_liftM, Traced.run_pure,
    run_execBlockTraced m body body]

theorem Code.run_callOnTraced (code : Code) (name : String) (args : List Value) :
    (code.callOnTraced m name args).run = code.callOn m.plain name args := by
  unfold Code.callOnTraced Code.callOn
  cases code.functions.lookup name with
  | some f => exact run_activateTraced m _ _ _ _
  | none => rfl

end Plain

variable {code : Code}

theorem Code.run_callValueTraced (hmaps : code.maps = .refuse) (time : Nat) (f : Value)
    (args : List Value) : (code.callValueTraced time f args).run = code.callValue time f args := by
  induction time generalizing f args with
  | zero => rfl
  | succ time ih =>
      have hengine : TracedEngine.plain ⟨code.callValueTraced time, time⟩
          = ⟨code.maps, code.callValue time, time⟩ := by
        simp only [TracedEngine.plain, hmaps, ih]
      simp only [Code.callValueTraced, Code.callValue, Traced.run_bind, Traced.run_liftM]
      congr 1
      funext c
      cases c with
      | function name => rw [← hengine]; exact code.run_callOnTraced _ name args
      | builtin b => rfl
      | closure i ps b env => rw [← hengine]; exact run_activateTraced _ _ ps b args

/-- **The record changes nothing**: a call with a record ends as the call does. -/
theorem callTraced_run (hmaps : code.maps = .refuse) (time : Nat) (name : String)
    (args : List Value) :
    (callTraced code time name args).run = callFunction code time name args := by
  have hengine : TracedEngine.plain ⟨code.callValueTraced time, time⟩ = code.engine time := by
    have hcall : (fun f vs => (code.callValueTraced time f vs).run) = code.callValue time := by
      funext f vs
      exact Code.run_callValueTraced hmaps time f vs
    simp only [TracedEngine.plain, Code.engine, hmaps, hcall]
  rw [callTraced, callFunction, ← hengine]
  exact code.run_callOnTraced _ name args

theorem Session.callTraced_run {s : Session} (hmaps : s.code.maps = .refuse) (time : Nat)
    (name : String) (args : List Datum) :
    (s.callTraced time name args).2 = s.call time name args := by
  have hrun : Traced.run (do
      let vs ← Datum.loadList args
      Machine.callTraced s.code time name vs)
      = (do
        let vs ← Datum.loadList args
        callFunction s.code time name vs) := by
    simp only [Traced.run_bind, Traced.run_liftM, Machine.callTraced_run hmaps]
  exact congrFun hrun { output := s.output }

end Rivulet.Machine
