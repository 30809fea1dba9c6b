import Rivulet.Proofs.Compiled.Stages
import Rivulet.Proofs.Lowering.Safety

set_option autoImplicit false

/-! # Compiled programs are safe

A program that compiles does not go wrong, whichever of its functions is called. Everything needed is
there: accepted texts give well-typed code, facts on maps keep it so, and calls of lowered code are
safe because calls of the code before lowering are. -/

namespace Rivulet.Compiled

open Ir Machine

variable {source : String} {form : Option Form}

/-- Compiled code is the lowering of well-typed code with the same signatures. -/
theorem exists_lowersTo {c : Compiled} {m : Ir.Module} (h : ofSource source form = .ok c)
    (hc : c.module? = some m) :
    ∃ md : Ir.Module, md.WellTyped ∧ md.LowersTo m ∧ Validate.signatures m = Validate.signatures md := by
  obtain ⟨p, m₀, n, hp, hm₀, hlower⟩ := exists_accepted_of_module h hc
  have hwt := Module.wellTyped_withMapFacts (Module.wellTyped_of_check hp.checked hm₀)
  have hto := Module.lowersTo_of_lower hwt hlower
  exact ⟨m₀.withMapFacts, hwt, hto, hto.signatures_eq⟩

/-- **Compiled programs are safe.** Take any text that compiles to a module, any function that is found
under a name in it, and any arguments of the types of its parameters. However much time there is, a
call of the function has no fault but a division by zero or an index that is out of bounds: there is
no map in the code, no unchecked subscript is out of bounds, no local is read before it is bound, no
length is negative, no value is of the wrong kind, and no function is missing. If the call ends with a
value, this is a value of the result type: the unit value for no result, the result itself if there is
one, and a tuple of them if there are several. -/
theorem callFunction_safe_of_ofSource (c : Compiled) (m : Ir.Module)
    (hcompiled : ofSource source form = .ok c) (hc : c.module? = some m) (name : String)
    (f : Ir.Function) (hf : (Code.ofModule m .refuse).functions.lookup name = some f)
    (st : StoreTyping) (s : Store) (args : List Value)
    (hs : s.Models (.lowered (Validate.signatures m)) st)
    (hargs : Value.HasTys (.lowered (Validate.signatures m)) st args (f.params.map f.ctx.typeOf))
    (time : Nat) :
    (∀ e s', callFunction (Code.ofModule m .refuse) time name args s = .fault e s' →
      e = .divisionByZero ∨ ∃ i n, e = .indexOutOfBounds i n) ∧
    ∀ v s', callFunction (Code.ofModule m .refuse) time name args s = .ok v s' →
      ∃ st', st.Le st' ∧ s'.Models (.lowered (Validate.signatures m)) st' ∧
        v.HasTy (.lowered (Validate.signatures m)) st' (.ofResults f.results) := by
  obtain ⟨md, hmd, hto, hsigs⟩ := exists_lowersTo hcompiled hc
  have hname : (Validate.signatures md).lookup name
      = some (.func (f.params.map f.ctx.typeOf) f.results) := by
    rw [← hsigs, Code.lookup_ofModule m .refuse, hf]
    rfl
  rw [hsigs] at hs hargs ⊢
  have hsafe := callFunction_lowered_safe hmd hto time hs hname hargs
  refine ⟨fun e s' hrun => ?_, fun v s' hrun => ?_⟩
  · rw [hrun] at hsafe
    cases e with
    | divisionByZero => exact .inl rfl
    | indexOutOfBounds i n => exact .inr ⟨i, n, rfl⟩
    | _ => exact hsafe.elim
  · rw [hrun] at hsafe
    exact hsafe

set_option maxRecDepth 100000 in
/-- A map that divides by the elements of its sequence, on a sequence that holds zero. -/
theorem callFunction_safe_of_ofSource_division :
    let source := "function f(a: [int]) -> [int] { return a |> x -> 6 / x; }"
    let s : Store := { slices := #[⟨#[.int 1, .int 0], none, by decide⟩] }
    ∃ c m, ofSource source none = .ok c ∧ c.module? = some m ∧
      ∀ time,
        (∀ e s', callFunction (Code.ofModule m .refuse) time "f" [.slice ⟨0⟩] s = .fault e s' →
          e = .divisionByZero ∨ ∃ i n, e = .indexOutOfBounds i n) ∧
        ∀ v s', callFunction (Code.ofModule m .refuse) time "f" [.slice ⟨0⟩] s = .ok v s' →
          ∃ st', v.HasTy (.lowered (Validate.signatures m)) st' (.slice .i64) := by
  intro source s
  have hsig : ((ofSource source none).toOption.bind module?).bind (fun m =>
      ((Code.ofModule m .refuse).functions.lookup "f").map fun f =>
        (f.params.map f.ctx.typeOf, f.results)) = some ([.slice .i64], [.slice .i64]) := by
    decide +kernel
  cases hcompiled : ofSource source none with
  | error e => rw [hcompiled] at hsig; cases hsig
  | ok c =>
      rw [hcompiled] at hsig
      obtain ⟨m, hc, hm⟩ := Option.bind_eq_some_iff.1 hsig
      obtain ⟨f, hf, htypes⟩ := Option.map_eq_some_iff.1 hm
      simp only [Prod.mk.injEq] at htypes
      refine ⟨c, m, rfl, hc, fun time => ?_⟩
      have hsafe := callFunction_safe_of_ofSource c m hcompiled hc "f" f hf
        ⟨fun _ => none, fun a => if a = 0 then some (.i64, 2) else none⟩ s [.slice ⟨0⟩] ?_ ?_ time
      · refine ⟨hsafe.1, fun v s' hrun => ?_⟩
        obtain ⟨st', -, -, hv⟩ := hsafe.2 v s' hrun
        rw [htypes.2] at hv
        exact ⟨st', hv⟩
      · refine ⟨fun h => (by cases h), fun {a t n} h => ?_⟩
        obtain ⟨rfl, rfl, rfl⟩ : a = 0 ∧ t = .i64 ∧ n = 2 := by grind
        refine ⟨⟨#[.int 1, .int 0], none, by decide⟩, rfl, rfl, ?_⟩
        simp [Value.HasTy]
      · rw [htypes.1]
        exact ⟨_, _, rfl, ⟨_, _, rfl, rfl⟩, rfl⟩

end Rivulet.Compiled
