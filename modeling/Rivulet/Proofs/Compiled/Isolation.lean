import Rivulet.Proofs.Compiled.Constants
import Rivulet.Proofs.Compiled.Stages
import Rivulet.Proofs.Machine.GraftedRuns
import Rivulet.Proofs.Machine.MoreTime
import Rivulet.Proofs.Machine.Safety

set_option autoImplicit false

/-! # Calls do not influence each other

Calls on one session share nothing but the printed text. This could be put down to the store that a
session gives to each call, which is a new one. Here it is proved of the code instead: even if the
store is kept, so that each call finds there what the calls before it have allocated, captured, or
left half done when they failed, it ends as it does alone. -/

namespace Rivulet.Machine

open Ir

/-! ## Repeated calls -/

/-- What is seen of a run that has ended: the text of its value, or its fault, and the printed text. -/
def Outcome.shown : Outcome Value → Option (Except Fault String × String)
  | .ok v s => some (.ok (s.render v), s.output)
  | .fault e s => some (.error e, s.output)
  | .exhausted => none

/-- A run ended as another one did, which had begun with nothing: with a value of the same text, or
with the same fault, or not at all. In front of what the other run has printed stands the text
`before`. -/
def Outcome.Repeats (o : Outcome Value) (before : String) (alone : Outcome Value) : Prop :=
  o.shown = alone.shown.map fun p => (p.1, before ++ p.2)

theorem Outcome.output?_eq (o : Outcome Value) : o.output? = o.shown.map Prod.snd := by
  cases o <;> rfl

/-- The text that had been printed when a run ended. -/
def Outcome.printed (o : Outcome Value) : String := o.output?.getD ""

/-- What is printed behind the text from before. -/
theorem Outcome.Repeats.output {o alone : Outcome Value} {before : String}
    (h : o.Repeats before alone) : o.output?.getD before = before ++ alone.printed := by
  rw [Outcome.printed, Outcome.output?_eq, Outcome.output?_eq, h]
  cases alone.shown with
  | none => exact String.append_empty.symm
  | some p => rfl

/-- Several runs, one after the other, ended as others did that had each begun with nothing. The text
`before` had been printed at first; from then on, each run adds what the other has printed. -/
def RepeatInTurn (before : String) : List (Outcome Value) → List (Outcome Value) → Prop
  | [], [] => True
  | o :: os, alone :: alones => o.Repeats before alone ∧ RepeatInTurn (before ++ alone.printed) os alones
  | _, _ => False

/-! ## Several calls -/

/-- Load arguments and call a function. -/
def Code.callWith (code : Code) (time : Nat) (call : String × List Datum) : Run Value :=
  Datum.loadList call.2 >>= callFunction code time call.1

/-- Make several calls, one after the other. Each of them runs in what `keep` makes of the end of the
one before it. -/
def Code.callAll (code : Code) (time : Nat) (keep : Store → Outcome Value → Store) (s : Store) :
    List (String × List Datum) → List (Outcome Value)
  | [] => []
  | call :: calls =>
      let o := code.callWith time call s
      o :: code.callAll time keep (keep s o) calls

/-- Keep the whole store that a run has left. -/
def Store.kept (s : Store) : Outcome Value → Store
  | .ok _ t => t
  | .fault _ t => t
  | .exhausted => s

/-- Keep the printed text only. -/
def Store.keptOutput (s : Store) (o : Outcome Value) : Store := { output := o.output?.getD s.output }

theorem Store.output_keptOutput (s : Store) (o : Outcome Value) :
    (s.keptOutput o).output = o.output?.getD s.output := rfl

theorem Store.output_kept (s : Store) (o : Outcome Value) :
    (s.kept o).output = o.output?.getD s.output := by
  cases o <;> rfl

/-- A session keeps the printed text only. -/
theorem Session.callAll_eq (time : Nat) (s : Session) (calls : List (String × List Datum)) :
    s.callAll time calls = s.code.callAll time Store.keptOutput { output := s.output } calls := by
  induction calls generalizing s with
  | nil => rfl
  | cons call calls ih =>
      show _ :: (s.after _).callAll time calls = _
      rw [ih]
      rfl

/-- Runs behind each other show the same. -/
theorem Grafted.repeats {s₀ s : Store} {V : View} {o alone : Outcome Value}
    (h : Grafted s₀ V s (SeenValue s₀) alone o) : o.Repeats s₀.output alone := by
  cases alone with
  | ok v t =>
      cases o with
      | ok w t' =>
          obtain ⟨rfl, V', -, hshows, hv, rfl⟩ := h
          exact congrArg (fun text => some (Except.ok text, _)) (hshows.render_graft s₀ hv)
      | fault | exhausted => exact h.elim
  | fault e t =>
      cases o with
      | fault e' t' =>
          obtain ⟨rfl, rfl⟩ := h
          rfl
      | ok | exhausted => exact h.elim
  | exhausted =>
      cases o with
      | exhausted => rfl
      | ok | fault => exact h.elim

section Repeats

variable {code : Code} (htame : code.Tame) (time : Nat)

include htame

/-- **A call repeats what it does alone**, whatever there is in the store. -/
theorem Code.callWith_repeats (s₀ : Store) (call : String × List Datum) :
    (code.callWith time call s₀).Repeats s₀.output (code.callWith time call {}) := by
  -- behind `s₀`, the empty store is `s₀` itself
  have hgrafted := Code.call_grafted htame s₀ time call.1 call.2 Store.shows_empty
  rw [Store.graft_empty] at hgrafted
  change Grafted s₀ _ _ _ (code.callWith time call {}) (code.callWith time call s₀) at hgrafted
  exact hgrafted.repeats

/-- **Each of several calls repeats what it does alone**, whatever is kept from one to the next, as long
as this has the text that was printed. -/
theorem Code.callAll_repeats {keep : Store → Outcome Value → Store}
    (hkeep : ∀ s o, (keep s o).output = o.output?.getD s.output)
    (calls : List (String × List Datum)) (s₀ : Store) :
    RepeatInTurn s₀.output (code.callAll time keep s₀ calls)
      (calls.map fun call => code.callWith time call {}) := by
  induction calls generalizing s₀ with
  | nil => trivial
  | cons call calls ih =>
      have hfirst := Code.callWith_repeats htame time s₀ call
      have hrest := ih (keep s₀ (code.callWith time call s₀))
      rw [hkeep, hfirst.output] at hrest
      exact ⟨hfirst, hrest⟩

end Repeats

/-! ## Calls that end -/

/-- A call of the session ends in this way, given enough time. -/
def Session.Ends (s : Session) (call : String × List Datum) (o : Outcome Value) : Prop :=
  o ≠ .exhausted ∧ ∃ time, s.call time call.1 call.2 = o

/-- If each of several calls ends, given enough time, then there is a time that is enough for all of
them. -/
theorem Session.exists_enough {s : Session} {calls : List (String × List Datum)}
    {alones : List (Outcome Value)} (h : List.Forall₂ s.Ends calls alones) :
    ∃ enough, ∀ time ≥ enough, (calls.map fun call => s.call time call.1 call.2) = alones := by
  induction h with
  | nil => exact ⟨0, fun _ _ => rfl⟩
  | cons hcall _ ih =>
      obtain ⟨hend, enough, rfl⟩ := hcall
      obtain ⟨enough', hall⟩ := ih
      refine ⟨max enough enough', fun time htime => ?_⟩
      have hfirst := Session.call_of_le ((Nat.le_max_left _ _).trans htime) hend
      rw [List.map_cons, hfirst, hall time ((Nat.le_max_right _ _).trans htime)]

end Rivulet.Machine

namespace Rivulet.Compiled

open Ir Machine

variable {source : String} {form : Option Form}

/-- Compiled code is tame. -/
theorem tame_of_ofSource {c : Compiled} {m : Ir.Module} (hcompiled : ofSource source form = .ok c)
    (hc : c.module? = some m) : (Code.ofModule m .refuse).Tame := by
  obtain ⟨p, m₀, n, hp, hm₀, hlower⟩ := exists_accepted_of_module hcompiled hc
  obtain rfl : m = m₀.withMapFacts.lower.2 := by rw [hlower]
  refine ⟨rfl, fun name h hh => ?_⟩
  have hstage : m₀.withMapFacts.lower.2 ∈ [m₀, m₀.withMapFacts, m₀.withMapFacts.lower.2] := by simp
  exact Module.exists_tame_of_check hp.checked hm₀ hstage (Code.mem_of_lookup hh).1

/-- **Calls on one session do not influence each other**, except through the printed text. Take any
text that compiles to a module, and any list of calls of its functions, with any arguments from
outside. Within any time, each call of the list ends as the same call does alone, in a session of its
own: with a value of the same text, or with the same fault, or not at all. The text that has been
printed when it ends is what had been printed before, followed by what the call prints alone. It does
not matter how the calls before it ended.

If each of the calls ends alone, given enough time, then there is a time from which on the whole list
ends in this way.

This holds of a session, in which each call gets a new store. It also holds if there is one store, and
every call finds in it all that the calls before it have left, finished or not. -/
theorem calls_repeat_alone (c : Compiled) (m : Ir.Module) (hcompiled : ofSource source form = .ok c)
    (hc : c.module? = some m) (calls : List (String × List Datum)) :
    let session := Session.ofModule m
    (∀ time,
      let alones := calls.map fun call => session.call time call.1 call.2
      RepeatInTurn "" (session.callAll time calls) alones ∧
        RepeatInTurn "" (session.code.callAll time Store.kept {} calls) alones) ∧
    ∀ alones, List.Forall₂ session.Ends calls alones →
      ∃ enough, ∀ time ≥ enough,
        RepeatInTurn "" (session.callAll time calls) alones ∧
          RepeatInTurn "" (session.code.callAll time Store.kept {} calls) alones := by
  intro session
  have htame := tame_of_ofSource hcompiled hc
  have hall : ∀ time,
      let alones := calls.map fun call => session.call time call.1 call.2
      RepeatInTurn "" (session.callAll time calls) alones ∧
        RepeatInTurn "" (session.code.callAll time Store.kept {} calls) alones := by
    intro time alones
    rw [Session.callAll_eq]
    exact ⟨Code.callAll_repeats htame time Store.output_keptOutput calls {},
      Code.callAll_repeats htame time Store.output_kept calls {}⟩
  refine ⟨hall, fun alones halones => ?_⟩
  obtain ⟨enough, henough⟩ := Session.exists_enough halones
  exact ⟨enough, fun time htime => henough time htime ▸ hall time⟩

set_option maxRecDepth 100000 in
/-- The first call prints a line and then divides by zero in the middle of a map. The second one is not
affected, and it prints its line behind the first. -/
theorem calls_repeat_alone_division :
    let source := "function f(a: [int]) -> [int] \x7b println(\"f\")\n return a |> x -> 6 / x \x7d"
    let calls : List (String × List Datum) :=
      [("f", [.list [.int 1, .int 0]]), ("f", [.list [.int 1, .int 2]])]
    ∃ c m, ofSource source none = .ok c ∧ c.module? = some m ∧
      ∃ enough, ∀ time ≥ enough, ∃ o₁ o₂,
        (Session.ofModule m).code.callAll time Store.kept {} calls = [o₁, o₂] ∧
          o₁.shown = some (.error .divisionByZero, "f\n") ∧
          o₂.shown = some (.ok "[6, 3]", "f\nf\n") := by
  intro source calls
  have hshown : ((ofSource source none).toOption.bind module?).map (fun m =>
      calls.map fun call => ((Session.ofModule m).call 5 call.1 call.2).shown) =
      some [some (.error .divisionByZero, "f\n"), some (.ok "[6, 3]", "f\n")] := by
    decide +kernel
  cases hcompiled : ofSource source none with
  | error e => rw [hcompiled] at hshown; cases hshown
  | ok c =>
      rw [hcompiled] at hshown
      obtain ⟨m, hc, hcalls⟩ := Option.map_eq_some_iff.1 hshown
      simp only [calls, List.map_cons, List.map_nil, List.cons.injEq, and_true] at hcalls
      obtain ⟨hfirst, hsecond⟩ := hcalls
      refine ⟨c, m, rfl, hc, ?_⟩
      have hends : ∀ {call : String × List Datum} {p : Except Fault String × String},
          ((Session.ofModule m).call 5 call.1 call.2).shown = some p →
          (Session.ofModule m).Ends call ((Session.ofModule m).call 5 call.1 call.2) := by
        refine fun h => ⟨fun hnone => ?_, 5, rfl⟩
        rw [hnone] at h
        cases h
      obtain ⟨-, hrepeat⟩ := calls_repeat_alone c m hcompiled hc calls
      obtain ⟨enough, hruns⟩ := hrepeat _ (.cons (hends hfirst) (.cons (hends hsecond) .nil))
      refine ⟨enough, fun time htime => ?_⟩
      obtain ⟨-, h₁, h₂, -⟩ := hruns time htime
      refine ⟨_, _, rfl, ?_, ?_⟩
      · rw [h₁, hfirst]
        rfl
      · rw [h₂, hsecond, Outcome.printed, Outcome.output?_eq, hfirst]
        rfl

end Rivulet.Compiled
