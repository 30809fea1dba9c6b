import Rivulet.Proofs.Code.ModuleGeneration
import Rivulet.Proofs.Lowering.ElementLoops
import Rivulet.Proofs.Machine.SteadyRuns
import Rivulet.Source.Parser

set_option autoImplicit false

/-! # Constants keep their value

The checker knows which names are constants, the code does not. That no constant is ever overwritten
is put together here from three facts: the typed tree of an accepted program assigns to no constant;
the generator finds the same declarations as the checker, so the code assigns to no local of a
constant; and facts on maps and lowering add assignments to new locals only. What a local of a
constant is bound to is then what every later reading finds. -/

namespace Rivulet.Ir

open Machine

theorem forall₂_of_getElem? {α β : Type} {R : α → β → Prop} {as : List α} {bs : List β}
    (h : List.Forall₂ R as bs) {i : Nat} {a : α} {b : β} (ha : as[i]? = some a)
    (hb : bs[i]? = some b) : R a b := by
  obtain ⟨hi, rfl⟩ := List.getElem?_eq_some_iff.1 ha
  obtain ⟨hj, rfl⟩ := List.getElem?_eq_some_iff.1 hb
  exact h.get hi hj

/-- What becomes of the functions of a module, up to lowered code. -/
theorem Module.forall₂_stages (m : Module) {M : Module}
    (hM : M ∈ [m, m.withMapFacts, m.withMapFacts.lower.2]) :
    List.Forall₂ (fun g h => h = g ∨ h = g.withMapFacts ∨ h = g.withMapFacts.lower.2) m.functions
      M.functions := by
  have hfacts : List.Forall₂ (fun g h => h = g.withMapFacts) m.functions m.withMapFacts.functions :=
    List.forall₂_map_right_iff.2 (List.forall₂_same.2 fun _ _ => rfl)
  simp only [List.mem_cons, List.not_mem_nil, or_false] at hM
  rcases hM with rfl | rfl | rfl
  · exact List.forall₂_same.2 fun _ _ => .inl rfl
  · exact hfacts.imp fun _ _ h => .inr (.inl h)
  · have hlower := Module.forall₂_lower m.withMapFacts
    refine (List.forall₂_map_left_iff.1 hlower).imp fun g h hh => ?_
    rcases hh with rfl | rfl
    · exact .inr (.inl rfl)
    · exact .inr (.inr rfl)

/-- Code that spares constants has the shape of lowered code at every stage. -/
theorem Function.SparesConstants.tame {A : LocalId → Prop} {constants : List LocalId}
    {g h : Function} (hg : g.SparesConstants A constants)
    (hh : h = g ∨ h = g.withMapFacts ∨ h = g.withMapFacts.lower.2) :
    Stmt.TameBlock A none h.body := by
  rcases hh with rfl | rfl | rfl
  · exact hg.plain.tame
  · exact hg.withMapFacts.plain.tame
  · exact Function.tame_lower hg.withMapFacts.plain hg.withMapFacts.fresh

/-- Code that spares constants does so at every stage. -/
theorem Function.SparesConstants.not_assigns {A : LocalId → Prop} {constants : List LocalId}
    {g h : Function} (hg : g.SparesConstants A constants)
    (hh : h = g ∨ h = g.withMapFacts ∨ h = g.withMapFacts.lower.2) {x : LocalId}
    (hx : x ∈ constants) : ¬ Stmt.Assigns h.body x := by
  rintro ⟨v, hv⟩
  exact hg.spared x hx ((hg.tame hh).assigns hv)

/-- Code of an accepted program has the shape of lowered code at every stage. -/
theorem Module.exists_tame_of_check {p : Source.Program} {m : Module}
    (hcheck : (Typed.Program.check p).findings = [])
    (hm : Module.ofTyped (Typed.Program.check p).value = .ok m) {M : Module}
    (hM : M ∈ [m, m.withMapFacts, m.withMapFacts.lower.2]) {h : Function} (hh : h ∈ M.functions) :
    ∃ A, Stmt.TameBlock A none h.body := by
  have hmade := Module.ofTyped_eq_ok_iff.1 hm
  have hstages := Module.forall₂_stages m hM
  obtain ⟨i, hi, rfl⟩ := List.mem_iff_getElem.1 hh
  have hig : i < m.functions.length := hstages.length_eq.symm ▸ hi
  have hif : i < (Typed.Program.check p).value.functions.length := hmade.length_eq.symm ▸ hig
  have hspares := Check.sparesConstants_of_check hcheck _ (List.getElem_mem hif)
  obtain ⟨A, hA⟩ := Function.sparesConstants_of_ofTyped hspares (hmade.get hif hig)
  exact ⟨A, hA.tame (hstages.get hig hi)⟩

/-- A body of a function: its own, or that of a closure in it. -/
def Function.HasBody (h : Function) (body : List Stmt) : Prop :=
  body = h.body ∨ ∃ ps rs cs i, .closure ps rs cs body i ∈ Stmt.partsList h.body

theorem Function.HasBody.assigns {h : Function} {body : List Stmt} (hbody : h.HasBody body)
    {x : LocalId} (hx : Stmt.Assigns body x) : Stmt.Assigns h.body x := by
  obtain ⟨v, hv⟩ := hx
  rcases hbody with rfl | ⟨ps, rs, cs, i, hmem⟩
  · exact ⟨v, hv⟩
  · exact ⟨v, .closureBody hmem hv⟩

/-- **Constants are never overwritten.** Take a program that the checker has nothing to report about,
and code that was made of it; then facts on its maps, and then lowering. In each of the three modules,
look at any function. To every constant that is declared in it belongs a local, and no assignment in
the function is to that local, in no block and in no closure.

So a constant keeps its value in every call of the module, whatever the arguments are, however much
time there is, and however the call ends: if a binding in the function gives the local of a constant a
cell and a value, everything that is read from that cell in the course of the call is that value. -/
theorem Module.constants_keep_value (p : Source.Program) (m : Module)
    (hcheck : (Typed.Program.check p).findings = [])
    (hm : Module.ofTyped (Typed.Program.check p).value = .ok m) :
    ∀ M ∈ [m, m.withMapFacts, m.withMapFacts.lower.2],
      M.functions.length = (Typed.Program.check p).value.functions.length ∧
      ∀ (i : Nat) (f : Typed.Function) (g h : Function),
        (Typed.Program.check p).value.functions[i]? = some f → m.functions[i]? = some g →
        M.functions[i]? = some h →
        (Function.constants f g).length = f.flags.count true ∧
        ∀ x ∈ Function.constants f g,
          ¬ Stmt.Assigns h.body x ∧
          ∀ (time : Nat) (s : Session) (name : String) (args : List Datum),
            s.code = Code.ofModule M .refuse →
            (s.callTraced time name args).2 = s.call time name args ∧
            ∀ body c v y w, h.HasBody body →
              .bound body x c v ∈ (s.callTraced time name args).1 →
              .read y c w ∈ (s.callTraced time name args).1 → w = v := by
  intro M hM
  -- functions keep their places, so `f`, `g` and `h` are the same function at three stages
  have hmade := Module.ofTyped_eq_ok_iff.1 hm
  have hstages := Module.forall₂_stages m hM
  refine ⟨hstages.length_eq.symm.trans hmade.length_eq.symm, fun i f g h hf hg hh => ?_⟩
  have hspares := Check.sparesConstants_of_check hcheck f (List.mem_of_getElem? hf)
  have hfg := forall₂_of_getElem? hmade hf hg
  obtain ⟨A, hA⟩ := Function.sparesConstants_of_ofTyped hspares hfg
  refine ⟨Function.length_constants hspares hfg, fun x hx => ?_⟩
  have hnot := hA.not_assigns (forall₂_of_getElem? hstages hg hh) hx
  refine ⟨hnot, fun time s name args hs => ⟨?_, fun body c v y w hbody hbound hread => ?_⟩⟩
  · exact Session.callTraced_run (by rw [hs]; rfl) time name args
  · exact Session.read_eq_bound time s name args hbound hread fun h => hnot (hbody.assigns h)

set_option maxRecDepth 100000 in
/-- The constant `limit` is hidden by a variable of the same name, to which there is an assignment, and
read by a closure. -/
theorem Module.constants_keep_value_shadowed :
    let source := "function f(n: int) -> int \x7b const limit := n + 1\n if n > 0 \x7b var limit := 0\n " ++
      "limit = 5 \x7d\n read := () -> limit\n return read() \x7d"
    let p := (Source.Program.ofSource source).value
    (Typed.Program.check p).findings = [] ∧
      ∃ m f g, Module.ofTyped (Typed.Program.check p).value = .ok m ∧
        (Typed.Program.check p).value.functions[0]? = some f ∧ m.functions[0]? = some g ∧
        Function.constants f g = [⟨1⟩] ∧
        ∀ M ∈ [m, m.withMapFacts, m.withMapFacts.lower.2], ∀ h, M.functions[0]? = some h →
          ¬ Stmt.Assigns h.body ⟨1⟩ ∧
          ∀ time c v y w,
            .bound h.body ⟨1⟩ c v ∈ ((Session.ofModule M).callTraced time "f" [.int 3]).1 →
            .read y c w ∈ ((Session.ofModule M).callTraced time "f" [.int 3]).1 → w = v := by
  intro source p
  have hrun : (Typed.Program.check p).findings = [] ∧
      ((Typed.Program.check p).value.functions[0]?.bind fun f =>
        (Module.ofTyped (Typed.Program.check p).value).toOption.bind fun m =>
          m.functions[0]?.map fun g => Function.constants f g) = some [⟨1⟩] := by
    decide +kernel
  obtain ⟨hcheck, hconst⟩ := hrun
  obtain ⟨f, hf, hconst⟩ := Option.bind_eq_some_iff.1 hconst
  obtain ⟨m, hm, hconst⟩ := Option.bind_eq_some_iff.1 hconst
  obtain ⟨g, hg, hconst⟩ := Option.map_eq_some_iff.1 hconst
  have hmade : Module.ofTyped (Typed.Program.check p).value = .ok m := by
    cases h : Module.ofTyped (Typed.Program.check p).value with
    | error b => rw [h] at hm; cases hm
    | ok m' => rw [h] at hm; cases hm; rfl
  refine ⟨hcheck, m, f, g, hmade, hf, hg, hconst, fun M hM h hh => ?_⟩
  obtain ⟨-, hall⟩ := Module.constants_keep_value p m hcheck hmade M hM
  obtain ⟨hnot, hruns⟩ := (hall 0 f g h hf hg hh).2 ⟨1⟩ (by rw [hconst]; simp)
  exact ⟨hnot, fun time c v y w hbound hread =>
    (hruns time (Session.ofModule M) "f" [.int 3] rfl).2 h.body c v y w (.inl rfl) hbound hread⟩

end Rivulet.Ir
