import Rivulet.Proofs.Code.Agreement
import Rivulet.Proofs.Lowering.Calls
import Rivulet.Proofs.Lowering.Success
import Rivulet.Proofs.Source.WholePrograms

set_option autoImplicit false

/-! # Lowering keeps the meaning of programs

A call of a function on code with direct maps and a call on the lowered code agree, for every program
that the checker accepts. What is put together here: the code is well typed, so the direct run has no
faults but those of the data; the lowered run goes side by side with it; and there is nothing left
that would excuse a difference. -/

namespace Rivulet.Machine

open Ir

/-- Two runs agree, on stores that were paired by `p` at first: both use up the time that is given,
or both stop with the same fault after the same output, or both end with the same value after the
same output. Values are the same up to the addresses in the two stores and to lowering of the code
of closures; in particular they have the same text. -/
def Outcome.Agrees (sigs : Validate.Signatures) (p : Pairing) : Outcome Value → Outcome Value → Prop
  | .ok v s, .ok w t =>
      s.output = t.output ∧ s.render v = t.render w ∧
        ∃ q, p.Le q ∧ s.Paired sigs q t ∧ v.Paired sigs q w
  | .fault e s, .fault e' t => e = e' ∧ s.output = t.output
  | .exhausted, .exhausted => True
  | _, _ => False

variable {sigs : Validate.Signatures} {p : Pairing} {s t : Store} {st : StoreTyping}

/-- If the direct run is safe, nothing excuses a difference. -/
theorem Beside.agrees {ct : CodeTyping} {Q : StoreTyping → Value → Prop} {o o' : Outcome Value}
    (hsafe : Safe ct st Q o)
    (hbeside : Beside sigs p t (fun q _ v w => v.Paired sigs q w) o o') : o.Agrees sigs p o' := by
  cases o with
  | ok v s' =>
      obtain ⟨w, t', q, rfl, hadv, hs, hvw⟩ := hbeside
      exact ⟨hs.output, hs.render_eq hvw, q, hadv.le, hs, hvw⟩
  | fault e s' =>
      obtain ⟨t', rfl, hout⟩ := hbeside hsafe
      exact ⟨rfl, hout⟩
  | exhausted =>
      cases hbeside
      trivial

/-- A call of a function that is not there. -/
theorem callFunction_of_lookup_none {md : Module} {maps : MapRule} {name : String}
    (h : (Validate.signatures md).lookup name = none) (time : Nat) (vs : List Value) (s : Store) :
    callFunction (Code.ofModule md maps) time name vs s = .fault (.noSuchFunction name) s := by
  rw [Code.lookup_ofModule md maps, Option.map_eq_none_iff] at h
  simp only [callFunction, Code.callOn, h]
  rfl

/-- Calls of a well-typed module and of its lowering agree. -/
theorem callFunction_agrees {md md' : Module} (hmd : md.WellTyped)
    (hlower : md.LowersTo md') (time : Nat) (name : String) {vs ws : List Value}
    (hs : s.Models (.source (Validate.signatures md)) st)
    (hvs : ∀ ps rs, (Validate.signatures md).lookup name = some (.func ps rs) →
      Value.HasTys (.source (Validate.signatures md)) st vs ps)
    (hst : s.Paired (Validate.signatures md) p t) (hws : PairedValues (Validate.signatures md) p vs ws) :
    Outcome.Agrees (Validate.signatures md) p
      (callFunction (Code.ofModule md .direct) time name vs s)
      (callFunction (Code.ofModule md' .refuse) time name ws t) := by
  cases hname : (Validate.signatures md).lookup name with
  | none =>
      rw [callFunction_of_lookup_none hname,
        callFunction_of_lookup_none (hlower.signatures_eq ▸ hname)]
      exact ⟨rfl, hst.output⟩
  | some ty =>
      obtain ⟨f, -, hsig⟩ := Option.map_eq_some_iff.1 (Code.lookup_ofModule md .direct name ▸ hname)
      subst hsig
      exact (callFunction_beside hmd hlower time hst name hws).agrees
        (callFunction_safe hmd time hs hname (hvs _ _ hname))

/-- **Lowering keeps the meaning of programs.** Take a program that the checker has nothing to report
about, and code that was made of it. After its maps have got their facts, the code can be lowered,
and every call of a function on arguments of the types of its parameters agrees on the two: on the
code with direct maps and on the lowered code, however much time there is, from any stores and with
any arguments that are the same on both sides. -/
theorem callFunction_agrees_of_check (prog : Source.Program) (m : Module)
    (hcheck : (Typed.Program.check prog.resolve).findings = [])
    (hm : Module.ofTyped (Typed.Program.check prog.resolve).value = .ok m) :
    ∃ n m', m.withMapFacts.lower = (.ok n, m') ∧
      ∀ (time : Nat) (name : String) (p : Pairing) (s t : Store) (st : StoreTyping)
        (vs ws : List Value),
        s.Models (.source (Validate.signatures m)) st → s.Paired (Validate.signatures m) p t →
        (∀ ps rs, (Validate.signatures m).lookup name = some (.func ps rs) →
          Value.HasTys (.source (Validate.signatures m)) st vs ps) →
        PairedValues (Validate.signatures m) p vs ws →
        Outcome.Agrees (Validate.signatures m) p
          (callFunction (Code.ofModule m.withMapFacts .direct) time name vs s)
          (callFunction (Code.ofModule m' .refuse) time name ws t) := by
  have hwt := Module.wellTyped_of_check hcheck hm
  have hwt' := Module.wellTyped_withMapFacts hwt
  obtain ⟨n, m', hlower⟩ := Module.lower_of_mapsReady (Module.mapsReady_withMapFacts hwt)
  refine ⟨n, m', hlower, fun time name p s t st vs ws hs hst hvs hws => ?_⟩
  rw [← Module.signatures_withMapFacts hwt] at hs hst hvs hws ⊢
  exact callFunction_agrees hwt' (Module.lowersTo_of_lower hwt' hlower) time name hs
    hvs hst hws

/-- A store with one sequence, paired with itself. -/
theorem Store.paired_self_of_items {x : Slice} (hx : ∀ v ∈ x.items.toList, ∃ n, v = .int n) :
    Store.Paired sigs ⟨fun _ => none, fun a => if a = 0 then some 0 else none⟩
      { slices := #[x] } { slices := #[x] } := by
  refine ⟨fun h => (by cases h), fun {a b} h => ?_, fun h => (by cases h), fun {a a' b} h h' => ?_, rfl,
    rfl, fun _ => 0, fun {a b} h v hv => ?_⟩
  · obtain ⟨rfl, rfl⟩ : a = 0 ∧ b = 0 := by grind
    refine ⟨x, x, rfl, rfl, List.forall₂_same.2 fun v hv => ?_⟩
    obtain ⟨n, rfl⟩ := hx v hv
    rfl
  · grind
  · obtain ⟨rfl, rfl⟩ : a = 0 ∧ b = 0 := by grind
    obtain ⟨n, rfl⟩ := hx v hv
    trivial

set_option maxRecDepth 100000 in
/-- A map that divides by the elements of its sequence, on a sequence that holds zero. What the parser
gives for the text has its captures already, so `prog` is the program as it was read. -/
theorem callFunction_agrees_of_check_division :
    let source := "function f(a: [int]) { println(a |> x -> 6 / x); }"
    let s : Store := { slices := #[⟨#[.int 1, .int 0], none, by decide⟩] }
    ∃ (prog : Source.Program) (m : Module) (n : Nat) (m' : Module),
      (Source.Program.ofSource source).value = prog.resolve ∧
      (Typed.Program.check prog.resolve).findings = [] ∧
      Module.ofTyped (Typed.Program.check prog.resolve).value = .ok m ∧
      m.withMapFacts.lower = (.ok n, m') ∧
      ∃ p : Pairing, ∀ time, Outcome.Agrees (Validate.signatures m) p
        (callFunction (Code.ofModule m.withMapFacts .direct) time "f" [.slice ⟨0⟩] s)
        (callFunction (Code.ofModule m' .refuse) time "f" [.slice ⟨0⟩] s) := by
  intro source s
  have hparsed : (Source.Program.ofSource source).findings = [] := by decide +kernel
  obtain ⟨prog, -, hprog⟩ := Source.Program.exists_whole_of_ofSource hparsed
  have hcheck : (Typed.Program.check prog.resolve).findings = [] := by
    rw [← hprog]
    decide +kernel
  have hsig : (Module.ofTyped (Typed.Program.check prog.resolve).value).toOption.map
      (fun m => (Validate.signatures m).lookup "f") = some (some (.func [.slice .i64] [])) := by
    rw [← hprog]
    decide +kernel
  cases hm : Module.ofTyped (Typed.Program.check prog.resolve).value with
  | error b => rw [hm] at hsig; cases hsig
  | ok m =>
      rw [hm] at hsig
      obtain ⟨n, m', hlower, hagrees⟩ := callFunction_agrees_of_check prog m hcheck hm
      refine ⟨prog, m, n, m', hprog, hcheck, hm, hlower, _, fun time => hagrees time "f" _ s s
        ⟨fun _ => none, fun a => if a = 0 then some (.i64, 2) else none⟩ _ _ ?_
        (Store.paired_self_of_items ?_) ?_ (.cons ⟨⟨0⟩, rfl, rfl⟩ .nil)⟩
      · refine ⟨fun h => (by cases h), fun {a t n} h => ?_⟩
        obtain ⟨rfl, rfl, rfl⟩ : a = 0 ∧ t = .i64 ∧ n = 2 := by grind
        refine ⟨⟨#[.int 1, .int 0], none, by decide⟩, rfl, rfl, ?_⟩
        simp [Value.HasTy]
      · simp
      · intro ps rs hf
        simp only [Except.toOption, Option.map_some, Option.some.injEq, hf, Ir.Ty.func.injEq] at hsig
        rw [hsig.1]
        exact ⟨_, _, rfl, ⟨_, _, rfl, rfl⟩, rfl⟩

end Rivulet.Machine
