import Rivulet.Compiled
import Rivulet.Proofs.Check.Captures
import Rivulet.Proofs.Code.Agreement
import Rivulet.Proofs.Lowering.Success
import Rivulet.Proofs.Source.WholePrograms

set_option autoImplicit false

/-! # The stages of compilation

What the stages promise each other, put together. A text is *accepted* if reading and checking it has
nothing to report. From there on one thing only can go wrong: a closure may capture a parameter that
the checker has dropped, because its function was defined again with fewer parameters. Otherwise code
is made, validation leaves it as it is, every map gets ready, and lowering succeeds. -/

namespace Rivulet

/-! ## Reports and breaches -/

theorem Report.accept_eq_ok_iff {α : Type} {r : Report Diagnostic α} {a : α} :
    r.accept = .ok a ↔ r.findings = [] ∧ r.value = a := by
  unfold Report.accept
  by_cases h : r.findings = []
  · simp [h]
  · simp [h]

namespace Compiled

/-- A text that is read and checked without a report, and its tree before captures are resolved. -/
structure Accepted (source : String) (p : Source.Program) : Prop where
  whole : p.Whole
  parsed : parse source = .ok p.resolve
  checked : (Typed.Program.check p.resolve).findings = []

variable {source : String} {p : Source.Program} {form : Option Form}

theorem exists_whole_of_parse {q : Source.Program} (h : parse source = .ok q) :
    ∃ p : Source.Program, p.Whole ∧ q = p.resolve := by
  obtain ⟨hfind, rfl⟩ := Report.accept_eq_ok_iff.1 h
  exact Source.Program.exists_whole_of_ofSource hfind

theorem check_eq_ok_iff {q : Source.Program} {t : Typed.Program} :
    check q = .ok t ↔ (Typed.Program.check q).findings = [] ∧ (Typed.Program.check q).value = t := by
  simp only [check, Report.accept_eq_ok_iff, Report.findings_mapFindings, List.map_eq_nil_iff,
    Report.value_mapFindings]

/-! ## Accepted texts -/

namespace Accepted

variable (h : Accepted source p)

include h

/-- The tree of an accepted text is well typed: there is no improper type and no placeholder in it,
and every local and every target of an assignment is in scope. -/
theorem wellTyped : (Typed.Program.check p.resolve).value.WellTyped (Check.signatures p) :=
  Check.checkProgram_wellTyped h.whole h.checked

/-- Code can be made of an accepted text exactly if no function loses a capture. -/
theorem exists_ofTyped_iff :
    (∃ m, Ir.Module.ofTyped (Typed.Program.check p.resolve).value = .ok m) ↔
      ∀ f ∈ p.functions, ¬ Check.LosesCapture (Check.signatures p) f := by
  rw [Ir.Module.exists_ofTyped_iff h.wellTyped, Check.value_check_resolve, List.forall_mem_map]
  exact forall₂_congr fun f _ => Check.capturesIn_checkFunction _ f

end Accepted

/-- Validated code of a tree that the checker accepts is the code that was made of it. -/
theorem generate_of_ofTyped {m : Ir.Module} (hcheck : (Typed.Program.check p.resolve).findings = [])
    (hm : Ir.Module.ofTyped (Typed.Program.check p.resolve).value = .ok m) :
    generate (Typed.Program.check p.resolve).value = .ok m := by
  have hvalid := Ir.Module.validate_of_wellTyped (Ir.Module.wellTyped_of_check hcheck hm)
  simp only [generate, hm, CompileFault.unbroken]
  exact Report.accept_eq_ok_iff.2 (by rw [hvalid]; exact ⟨rfl, rfl⟩)

/-- Well-typed code can be lowered. -/
theorem exists_lower {m : Ir.Module} (hm : m.WellTyped) :
    ∃ n m', m.withMapFacts.lower = (.ok n, m') ∧ lower m = .ok m' := by
  obtain ⟨n, m', hlower⟩ := Ir.Module.lower_of_mapsReady (Ir.Module.mapsReady_withMapFacts hm)
  refine ⟨n, m', hlower, ?_⟩
  simp only [lower, hlower]
  rfl

/-! ## Compilation -/

theorem accept_eq_error {α : Type} {r : Report Diagnostic α} {e : CompileFault}
    (h : r.accept = .error e) : ∃ ds, e = .rejected ds := by
  unfold Report.accept at h
  split at h
  · cases h
  · cases h
    exact ⟨_, rfl⟩

/-- Compilation up to a later form goes through all stages. -/
theorem ofSource_of_accepted (h : Accepted source p)
    (hform : form ≠ some .tokens ∧ form ≠ some .ast ∧ form ≠ some .typed) :
    ofSource source form = (do
      let code ← generate (Typed.Program.check p.resolve).value
      if form = some .ir then pure (.shown code.render)
      else
        let code ← lower code
        pure (.lowered code (if form = some .lowered then some code.render else none))) := by
  have hcheck : check p.resolve = .ok (Typed.Program.check p.resolve).value :=
    check_eq_ok_iff.2 ⟨h.checked, rfl⟩
  simp only [ofSource, h.parsed, hcheck, if_neg hform.1, if_neg hform.2.1, if_neg hform.2.2,
    bind, Except.bind, pure, Except.pure]

/-- A text is rejected, or an earlier form of it is shown, or it is accepted and a later form of it is
asked for. -/
theorem ofSource_cases (source : String) (form : Option Form) :
    (∃ ds, ofSource source form = .error (.rejected ds)) ∨
      (∃ text, ofSource source form = .ok (.shown text)) ∨
        (form ≠ some .tokens ∧ form ≠ some .ast ∧ form ≠ some .typed) ∧
          ∃ p, Accepted source p := by
  -- the stages one after the other; each may be the last, because it rejects or because its form is asked for
  unfold ofSource
  by_cases htokens : form = some .tokens
  · rw [if_pos htokens]
    cases hread : readTokens source with
    | error e =>
        obtain ⟨ds, rfl⟩ := accept_eq_error hread
        exact .inl ⟨ds, rfl⟩
    | ok tokens => exact .inr (.inl ⟨_, rfl⟩)
  rw [if_neg htokens]
  cases hparse : parse source with
  | error e =>
      obtain ⟨ds, rfl⟩ := accept_eq_error hparse
      exact .inl ⟨ds, rfl⟩
  | ok q =>
      obtain ⟨p, hwhole, rfl⟩ := exists_whole_of_parse hparse
      by_cases hast : form = some .ast
      · refine .inr (.inl ⟨p.resolve.dump.block ++ "\n", ?_⟩)
        simp only [hast, bind, Except.bind, pure, Except.pure, if_true]
      cases hcheck : check p.resolve with
      | error e =>
          obtain ⟨ds, rfl⟩ := accept_eq_error hcheck
          refine .inl ⟨ds, ?_⟩
          simp only [hast, hcheck, bind, Except.bind, if_false]
      | ok t =>
          by_cases htyped : form = some .typed
          · refine .inr (.inl ⟨t.dump.block ++ "\n", ?_⟩)
            simp only [hcheck, htyped, bind, Except.bind, pure, Except.pure, if_true, reduceCtorEq,
              Option.some.injEq, if_false]
          · exact .inr (.inr ⟨⟨htokens, hast, htyped⟩, p, hwhole, hparse, (check_eq_ok_iff.1 hcheck).1⟩)

/-- What compilation gives if code can be made of an accepted text. -/
theorem ofSource_of_ofTyped (h : Accepted source p)
    (hform : form ≠ some .tokens ∧ form ≠ some .ast ∧ form ≠ some .typed) {m : Ir.Module}
    (hm : Ir.Module.ofTyped (Typed.Program.check p.resolve).value = .ok m) :
    ∃ n m', m.withMapFacts.lower = (.ok n, m') ∧ ofSource source form =
      .ok (if form = some .ir then .shown m.render
        else .lowered m' (if form = some .lowered then some m'.render else none)) := by
  obtain ⟨n, m', hlower, hlower'⟩ := exists_lower (Ir.Module.wellTyped_of_check h.checked hm)
  refine ⟨n, m', hlower, ?_⟩
  rw [ofSource_of_accepted h hform, generate_of_ofTyped h.checked hm]
  simp only [hlower', bind, Except.bind, pure, Except.pure]
  split <;> rfl

/-- Lowered code comes from an accepted text. -/
theorem exists_accepted_of_module {c : Compiled} {m' : Ir.Module} (h : ofSource source form = .ok c)
    (hc : c.module? = some m') :
    ∃ p m n, Accepted source p ∧ Ir.Module.ofTyped (Typed.Program.check p.resolve).value = .ok m ∧
      m.withMapFacts.lower = (.ok n, m') := by
  rcases ofSource_cases source form with ⟨ds, hds⟩ | ⟨text, htext⟩ | ⟨hform, p, hp⟩
  · rw [hds] at h
    cases h
  · rw [htext] at h
    cases h
    cases hc
  · cases hm : Ir.Module.ofTyped (Typed.Program.check p.resolve).value with
    | error b =>
        rw [ofSource_of_accepted hp hform] at h
        simp only [generate, hm, CompileFault.unbroken] at h
        cases h
    | ok m =>
        obtain ⟨n, m₁, hlower, hsource⟩ := ofSource_of_ofTyped hp hform hm
        rw [hsource] at h
        cases h
        split at hc
        · cases hc
        · cases hc
          exact ⟨p, m, n, hp, hm, hlower⟩

/-- **When compilation breaks a promise.** For every text and every form that may be asked for,
compilation ends in a breach exactly if code is asked for, the text is accepted, and one of its
functions loses a capture: a closure in it uses a parameter that the signature of its name, which is
that of its last definition, is too short for. Apart from that every promise is kept. The tree of an
accepted text is well typed, so there is no improper type and no placeholder in it, every local and
every target of an assignment is in scope, and operands that must agree have one type. If code is made
of it, this is well typed with the common types of operands written down, and every map of it has
facts and the types of sequences when it is lowered. -/
theorem ofSource_broken_iff (source : String) (form : Option Form) :
    ((∃ b, ofSource source form = .error (.broken b)) ↔
      (form ≠ some .tokens ∧ form ≠ some .ast ∧ form ≠ some .typed) ∧
        ∃ p, Accepted source p ∧ ∃ f ∈ p.functions, Check.LosesCapture (Check.signatures p) f) ∧
      ∀ p, Accepted source p →
        (Typed.Program.check p.resolve).value.WellTyped (Check.signatures p) ∧
          ∀ m, Ir.Module.ofTyped (Typed.Program.check p.resolve).value = .ok m →
            m.WellTyped ∧ m.withMapFacts.MapsReady := by
  refine ⟨⟨?_, ?_⟩, fun p hp => ⟨hp.wellTyped, fun m hm => ?_⟩⟩
  · rintro ⟨b, hb⟩
    rcases ofSource_cases source form with ⟨ds, hds⟩ | ⟨text, htext⟩ | ⟨hform, p, hp⟩
    · rw [hds] at hb
      cases hb
    · rw [htext] at hb
      cases hb
    · refine ⟨hform, p, hp, ?_⟩
      by_contra hnone
      push Not at hnone
      obtain ⟨m, hm⟩ := hp.exists_ofTyped_iff.2 hnone
      obtain ⟨n, m', -, hsource⟩ := ofSource_of_ofTyped hp hform hm
      rw [hsource] at hb
      cases hb
  · rintro ⟨hform, p, hp, f, hf, hlost⟩
    cases hm : Ir.Module.ofTyped (Typed.Program.check p.resolve).value with
    | ok m => exact absurd hlost (hp.exists_ofTyped_iff.1 ⟨m, hm⟩ f hf)
    | error b =>
        refine ⟨b, ?_⟩
        rw [ofSource_of_accepted hp hform]
        simp only [generate, hm, CompileFault.unbroken]
        rfl
  · have hwt := Ir.Module.wellTyped_of_check hp.checked hm
    exact ⟨hwt, Ir.Module.mapsReady_withMapFacts hwt⟩

/-- Whether compilation ended in a breach. -/
def isBroken : Except CompileFault Compiled → Bool
  | .error (.broken _) => true
  | _ => false

set_option maxRecDepth 100000 in
/-- A function whose parameter `str` is dropped, because the function is defined again without
parameters. The checker takes `str` for the builtin of that name, but the closure captures it. -/
theorem ofSource_broken_iff_redefined :
    let source := "function f(str: int) { h := () -> str(1); }\nfunction f() { }\n"
    (∃ b, ofSource source none = .error (.broken b)) ∧
      ∃ p, Accepted source p ∧
        (Typed.Program.check p.resolve).value.WellTyped (Check.signatures p) ∧
        ∃ f ∈ p.functions, Check.LosesCapture (Check.signatures p) f := by
  intro source
  have hbroken : isBroken (ofSource source none) = true := by decide +kernel
  have hex : ∃ b, ofSource source none = .error (.broken b) := by
    unfold isBroken at hbroken
    split at hbroken
    · rename_i b hb
      exact ⟨b, hb⟩
    · cases hbroken
  obtain ⟨-, p, hp, hlost⟩ := (ofSource_broken_iff source none).1.1 hex
  exact ⟨hex, p, hp, ((ofSource_broken_iff source none).2 p hp).1, hlost⟩

end Compiled

end Rivulet
