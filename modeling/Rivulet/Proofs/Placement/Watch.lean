import Rivulet.Ir.Placement
import Rivulet.Machine.Session

set_option autoImplicit false

/-! # Watched runs

How long a sequence lives, said about runs. Every sequence remembers the site and the activation it
was made by. When an activation returns, some sequences are out of reach for good, and others survive
(`Survives`). A function *keeps its frame clear* in a call if every sequence of the call that survives
comes from a site that goes to the heap.

To say this of every activation in a run, however deep, the evaluator is *watched*: whenever a body has
returned, the watch looks at what survives, and a call that does not keep its frame clear gives an
alarm in place of its value. Apart from that, a watched call is a call. -/

namespace Rivulet.Machine

open Ir

/-! ## What survives a call -/

/-- A sequence can be reached from a value: through elements of sequences and tuples, and through the
cells that closures have captured. -/
inductive Store.Reaches (s : Store) : Value → SliceAddr → Prop where
  | slice (a : SliceAddr) : Store.Reaches s (.slice a) a
  | item {a b : SliceAddr} {sl : Slice} {v : Value} (ha : s.slices[a.index]? = some sl)
      (hv : v ∈ sl.items) (h : Store.Reaches s v b) : Store.Reaches s (.slice a) b
  | element {b : SliceAddr} {vs : List Value} {v : Value} (hv : v ∈ vs)
      (h : Store.Reaches s v b) : Store.Reaches s (.tuple vs) b
  | captured {b : SliceAddr} {i : Nat} {ps : List LocalId} {body : List Stmt}
      {env : List (LocalId × CellAddr)} {x : LocalId} {c : CellAddr} {v : Value}
      (hc : (x, c) ∈ env) (hv : s.cells[c.index]? = some v) (h : Store.Reaches s v b) :
      Store.Reaches s (.func (.closure i ps body env)) b

/-- A sequence survives a call that started on the store `before` and gave `v` and the store `after`.
All that the frames, the closures and the half-done computations of the callers can name are `v` and
the addresses that were there before, so these are the places to start from. -/
inductive Survives (before : Store) (v : Value) (after : Store) (a : SliceAddr) : Prop where
  | value (h : after.Reaches v a)
  | cell {c : Nat} {w : Value} (old : c < before.cells.size) (hc : after.cells[c]? = some w)
      (h : after.Reaches w a)
  | slice {b : SliceAddr} (old : b.index < before.slices.size) (h : after.Reaches (.slice b) a)

/-- A call of a function, or of a closure written in it, keeps its frame clear: if a sequence of this
activation survives, its site is placed on the heap and not in the frame. The activation is the first
one that was not there before. -/
def KeepsClear (f : Function) (before : Store) (v : Value) (after : Store) : Prop :=
  ∀ (a : SliceAddr) (sl : Slice) (site : Site), after.slices[a.index]? = some sl →
    sl.origin = some ⟨site, before.activations⟩ → Survives before v after a →
    (site, .heap) ∈ f.placements ∧ (site, .stack) ∉ f.placements

/-- A closure is written in a function: there is a closure with its parameters, its captures and its
body in the code. -/
def Callable.WrittenIn (c : Callable) (f : Function) : Prop :=
  match c with
  | .closure _ ps b env => ∃ rs i, Expr.closure ps rs (env.map Prod.fst) b i ∈ f.parts
  | .function _ | .builtin _ => False

/-- The closures that the code of a function makes are written in it. -/
theorem Callable.writtenIn_of_eval {m : Engine} {fr : Frame} {ps cs : List LocalId}
    {rs : List Ir.Ty} {b : List Stmt} {i : Info} {s s' : Store} {v : Value}
    (hrun : eval m fr (.closure ps rs cs b i) s = .ok v s') :
    ∃ c, v = .func c ∧ ∀ f : Function, Expr.closure ps rs cs b i ∈ f.parts → c.WrittenIn f := by
  -- the environment has the captured locals in it, in their order
  have henv : ∀ {cs : List LocalId} {s s' : Store} {env : List (LocalId × CellAddr)},
      captureCells fr cs s = .ok env s' → env.map Prod.fst = cs := by
    intro cs
    induction cs with
    | nil =>
        intro s s' env h
        cases h
        rfl
    | cons x cs ih =>
        intro s s' env h
        simp only [captureCells, Run.bind_apply] at h
        split at h
        · split at h
          · rename_i hrest
            cases h
            rw [List.map_cons, ih hrest]
          · cases h
          · cases h
        · cases h
        · cases h
  simp only [eval, Run.bind_apply] at hrun
  split at hrun
  · rename_i env s₁ hcs
    cases hrun
    refine ⟨_, rfl, fun f hf => ⟨rs, i, ?_⟩⟩
    rw [henv hcs]
    exact hf
  · cases hrun
  · cases hrun

/-! ## The watch -/

open Classical in
/-- Run, and give an alarm if the value and the store at the end are not as they should be. -/
noncomputable def Run.watched (alarm : Outcome Value) (good : Store → Value → Store → Prop)
    (r : Run Value) : Run Value := fun s =>
  match r s with
  | .ok v s' => if good s v s' then .ok v s' else alarm
  | .fault e s' => .fault e s'
  | .exhausted => .exhausted

namespace Code

variable (alarm : Outcome Value)

/-- Call a function by its name, and watch it. -/
noncomputable def callOnWatched (code : Code) (m : Engine) (name : String) (args : List Value) :
    Run Value :=
  match code.functions.lookup name with
  | some f => Run.watched alarm (KeepsClear f) (activate m [] f.params f.body args)
  | none => Run.stop (.noSuchFunction name)

/-- Call a value within the given time, and watch every call within. -/
noncomputable def callValueWatched (code : Code) : Nat → Value → List Value → Run Value
  | 0, _, _ => Run.exhausted
  | time + 1, f, args => do
      let c ← asCallable f
      match c with
      | .function name =>
          code.callOnWatched alarm ⟨code.maps, callValueWatched code time, time⟩ name args
      | .builtin b => builtin b args
      | .closure _ ps b env =>
          Run.watched alarm
            (fun before v after => ∀ f ∈ code.functions.map Prod.snd, c.WrittenIn f →
              KeepsClear f before v after)
            (activate ⟨code.maps, callValueWatched code time, time⟩ (closureCells env) ps b args)

/-- The engine that runs the code within the given time, and watches every call. -/
noncomputable def engineWatched (code : Code) (time : Nat) : Engine :=
  ⟨code.maps, code.callValueWatched alarm time, time⟩

end Code

/-- Call a function by its name within the given time, and watch every call. -/
noncomputable def callFunctionWatched (alarm : Outcome Value) (code : Code) (time : Nat)
    (name : String) (args : List Value) : Run Value :=
  code.callOnWatched alarm (code.engineWatched alarm time) name args

/-- Call a function in a session, and watch every call. -/
noncomputable def Session.callWatched (alarm : Outcome Value) (time : Nat) (s : Session)
    (name : String) (args : List Datum) : Outcome Value :=
  let run : Run Value := do
    let vs ← Datum.loadList args
    callFunctionWatched alarm s.code time name vs
  run { output := s.output }

end Rivulet.Machine
