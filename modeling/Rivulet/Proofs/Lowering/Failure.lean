import Rivulet.Proofs.Code.Generation
import Rivulet.Proofs.Lowering.Steps
import Rivulet.Proofs.Lowering.Temporaries

set_option autoImplicit false

/-! # Where lowering fails

Lowering needs three things of a map: its facts, and that its own type and the type of its left
operand are those of sequences. A map that lacks one of them is *malformed* (`Expr.IsMalformed`).

Lowering a module fails exactly if there is a malformed map in it, with a breach at the first one
(`Module.lower_error_iff`). The functions before that map are lowered then, its own function has lost
its body and keeps what it had in its table of locals, and the functions after it are untouched. -/

namespace Rivulet.Ir

open Lowering

/-! ## Malformed maps -/

/-- A map without facts, or without a sequence on the left, or that is no sequence itself. -/
def Expr.IsMalformed : Expr → Prop
  | .binary op l _ _ facts i =>
      op = .map ∧ (facts = none ∨ (∀ t, i.ty ≠ .slice t) ∨ ∀ t, l.ty ≠ .slice t)
  | _ => False

theorem Lowering.breachOf_mapParts_eq_none_iff {l : Expr} {facts : Option MapFacts} {i : Info} :
    breachOf (mapParts l facts i) = none ↔
      ¬ (facts = none ∨ (∀ t, i.ty ≠ .slice t) ∨ ∀ t, l.ty ≠ .slice t) := by
  cases hparts : mapParts l facts i with
  | ok parts =>
      obtain ⟨hfacts, hi, hl⟩ := mapParts_ok_iff.1 hparts
      simp [breachOf, hfacts, hi, hl]
  | error b =>
      simp only [breachOf, reduceCtorEq, false_iff, not_not]
      -- a map that has all three is no breach
      by_contra hnot
      push Not at hnot
      obtain ⟨hfacts, ⟨t, ht⟩, u, hu⟩ := hnot
      obtain ⟨found, rfl⟩ := Option.ne_none_iff_exists'.1 hfacts
      rw [mapParts_ok_iff.2 ⟨rfl, ht, hu⟩] at hparts
      cases hparts

/-- Exactly the malformed maps are breaches. -/
theorem Expr.breach?_eq_none_iff {e : Expr} : e.breach? = none ↔ ¬ e.IsMalformed := by
  cases e with
  | binary op l r t facts i =>
      simp only [Expr.breach?, Expr.IsMalformed, not_and]
      split
      · rename_i hop
        rw [breachOf_mapParts_eq_none_iff]
        exact ⟨fun h _ => h, fun h => h hop⟩
      · rename_i hop
        exact ⟨fun _ h => absurd h hop, fun _ => rfl⟩
  | _ => simp [Expr.breach?, Expr.IsMalformed]

/-- A breach at a map is about the shape of the code, and it is located at the map. -/
theorem Expr.span_of_breach? {e : Expr} {b : Breach} (h : e.breach? = some b) :
    b.span = e.span ∧ b.isUnresolved = false := by
  cases e with
  | binary op l r t facts i =>
      simp only [Expr.breach?] at h
      split at h
      · unfold mapParts at h
        repeat' split at h
        all_goals cases h
        all_goals exact ⟨rfl, rfl⟩
      · cases h
  | _ => cases h

theorem firstBreach_eq_none_iff {ps : List Expr} :
    firstBreach ps = none ↔ ∀ e ∈ ps, ¬ e.IsMalformed := by
  simp only [firstBreach, List.findSome?_eq_none_iff, Expr.breach?_eq_none_iff]

/-- The first breach is at the first malformed map. -/
theorem exists_of_firstBreach {ps : List Expr} {b : Breach} (h : firstBreach ps = some b) :
    ∃ qs e rs, ps = qs ++ e :: rs ∧ (∀ d ∈ qs, ¬ d.IsMalformed) ∧ e.IsMalformed ∧
      b.span = e.span ∧ b.isUnresolved = false := by
  obtain ⟨qs, e, rs, rfl, he, hqs⟩ := List.findSome?_eq_some_iff.1 h
  have hmalformed : e.IsMalformed := by
    by_contra hnot
    rw [Expr.breach?_eq_none_iff.2 hnot] at he
    cases he
  exact ⟨qs, e, rs, rfl, fun d hd => Expr.breach?_eq_none_iff.1 (hqs d hd), hmalformed,
    Expr.span_of_breach? he⟩

/-! ## Functions -/

/-- What becomes of a function without a malformed map, and of one with. -/
theorem Function.lower_cases (f : Function) :
    (∃ body st, Lowers (block f.body) ⟨f.ctx, 0⟩ body st ∧ firstBreach f.parts = none ∧
        f.lower = (.ok st.lowered, { f with body := body, ctx := st.ctx })) ∨
      ∃ b ctx added, firstBreach f.parts = some b ∧ f.ctx.Adds ctx added ∧
        f.lower = (.error b, { f with body := [], ctx := ctx }) := by
  obtain ⟨⟨added, hadded⟩, hbreach⟩ := ends_block respected_adds f.body ⟨f.ctx, 0⟩
  unfold Function.lower
  cases hrun : (block f.body).run.run ⟨f.ctx, 0⟩ with
  | mk r st =>
      rw [hrun] at hadded hbreach
      cases r with
      | ok body => exact .inl ⟨body, st, hrun, hbreach.symm, rfl⟩
      | error b => exact .inr ⟨b, st.ctx, added, hbreach.symm, hadded, rfl⟩

theorem Function.lower_ok {f f' : Function} {n : Nat} (h : f.lower = (.ok n, f')) :
    firstBreach f.parts = none := by
  rcases f.lower_cases with ⟨body, st, -, hnone, -⟩ | ⟨b, ctx, added, -, -, heq⟩
  · exact hnone
  · rw [heq] at h
    cases h

theorem Function.lower_error {f f' : Function} {b : Breach} (h : f.lower = (.error b, f')) :
    firstBreach f.parts = some b ∧ f' = { f with body := [], ctx := f'.ctx } ∧
      f.ctx.locals.toList <+: f'.ctx.locals.toList := by
  rcases f.lower_cases with ⟨body, st, -, -, heq⟩ | ⟨b', ctx, added, hb, hadded, heq⟩
  · rw [heq] at h
    cases h
  · rw [heq] at h
    cases h
    exact ⟨hb, rfl, added, hadded.locals.symm⟩

/-! ## Modules -/

/-- Lowering functions stops at the first that fails. -/
theorem Lowering.functions_error {b : Breach} : ∀ {fs fs' : List Function},
    functions Function.lower fs = (.error b, fs') →
      ∃ before f after before' f', fs = before ++ f :: after ∧ fs' = before' ++ f' :: after ∧
        List.Forall₂ (fun g g' => ∃ n, g.lower = (.ok n, g')) before before' ∧
        f.lower = (.error b, f')
  | [], fs', h => by cases h
  | f :: fs, fs', h => by
      unfold functions at h
      split at h
      · rename_i b' f' hf
        cases h
        exact ⟨[], f, fs, [], f', rfl, rfl, .nil, hf⟩
      · rename_i n f' hf
        cases hrest : functions Function.lower fs with
        | mk r fs₁ =>
            rw [hrest] at h
            cases r with
            | ok k => cases h
            | error b' =>
                cases h
                obtain ⟨before, g, after, before', g', rfl, rfl, hbefore, hg⟩ := functions_error hrest
                exact ⟨f :: before, g, after, f' :: before', g', rfl, rfl, .cons ⟨n, hf⟩ hbefore, hg⟩

/-- A function that fails makes the whole fail. -/
theorem Lowering.exists_functions_error : ∀ {fs : List Function} {f f' : Function} {b : Breach},
    f ∈ fs → f.lower = (.error b, f') → ∃ b' fs', functions Function.lower fs = (.error b', fs')
  | g :: fs, f, f', b, hmem, hf => by
      cases hg : g.lower with
      | mk r g' =>
          cases r with
          | error b' => exact ⟨b', g' :: fs, by simp only [functions, hg]⟩
          | ok n =>
              rcases List.mem_cons.1 hmem with rfl | hmem
              · rw [hg] at hf
                cases hf
              · obtain ⟨b', fs', hfs⟩ := exists_functions_error hmem hf
                exact ⟨b', g' :: fs', by simp only [functions, hg, hfs]; rfl⟩

/-- **Lowering fails exactly at malformed maps and stops cleanly.** It fails if and only if there is a
malformed map in a function of the module, the bodies of closures included. The breach is then about
the shape of the code, at the first malformed map in the order of the functions and of their
expressions. The functions before it are lowered, its own function keeps all but its body, with the
old table of locals in front of the new one, and the functions behind it are untouched. -/
theorem Module.lower_error_iff (m : Module) :
    ((∃ b m', m.lower = (.error b, m')) ↔ ∃ f ∈ m.functions, ∃ e ∈ f.parts, e.IsMalformed) ∧
      ∀ b m', m.lower = (.error b, m') →
        ∃ before f after before' f',
          m.functions = before ++ f :: after ∧ m'.functions = before' ++ f' :: after ∧
          (∀ g ∈ before, ∀ e ∈ g.parts, ¬ e.IsMalformed) ∧
          (∃ qs e rs, f.parts = qs ++ e :: rs ∧ (∀ d ∈ qs, ¬ d.IsMalformed) ∧ e.IsMalformed ∧
            b.span = e.span ∧ b.isUnresolved = false) ∧
          List.Forall₂ (fun g g' => ∃ n, g.lower = (.ok n, g')) before before' ∧
          f' = { f with body := [], ctx := f'.ctx } ∧
          f.ctx.locals.toList <+: f'.ctx.locals.toList := by
  have hstops : ∀ b m', m.lower = (.error b, m') →
      Lowering.functions Function.lower m.functions = (.error b, m'.functions) := by
    intro b m' h
    simp only [Module.lower, Prod.mk.injEq] at h
    obtain ⟨hr, rfl⟩ := h
    exact Prod.ext hr rfl
  refine ⟨⟨?_, ?_⟩, ?_⟩
  · rintro ⟨b, m', h⟩
    obtain ⟨before, f, after, before', f', hfs, -, -, hf⟩ := functions_error (hstops b m' h)
    obtain ⟨qs, e, rs, hparts, -, he, -⟩ := exists_of_firstBreach (Function.lower_error hf).1
    exact ⟨f, by simp [hfs], e, by simp [hparts], he⟩
  · -- the function with the malformed map fails, if none before it does
    rintro ⟨f, hf, e, he, hmalformed⟩
    rcases f.lower_cases with ⟨body, st, -, hnone, -⟩ | ⟨b, ctx, added, -, -, hlower⟩
    · exact absurd hmalformed (firstBreach_eq_none_iff.1 hnone e he)
    · obtain ⟨b', fs', hfs⟩ := exists_functions_error hf hlower
      exact ⟨b', ⟨fs'⟩, by simp only [Module.lower, hfs]⟩
  · intro b m' h
    obtain ⟨before, f, after, before', f', hfs, hfs', hbefore, hf⟩ := functions_error (hstops b m' h)
    obtain ⟨hb, hf', hlocals⟩ := Function.lower_error hf
    refine ⟨before, f, after, before', f', hfs, hfs', ?_, exists_of_firstBreach hb, hbefore, hf',
      hlocals⟩
    -- the functions before the one that fails are lowered, so nothing is malformed in them
    intro g hg
    obtain ⟨g', -, n, hg'⟩ := mem_of_forall₂_right hbefore.flip hg
    exact firstBreach_eq_none_iff.1 (Function.lower_ok hg')

/-- Three functions, each with a good map. The second one also has a map without facts, in a closure
behind a conjunction whose left operand is lowered before it. -/
theorem Module.lower_error_iff_closure :
    let i : Info := ⟨.slice .i64, ⟨3, 5⟩⟩
    let good : Expr := .binary .map (.local ⟨0⟩ i) (.builtin .str i) none (some { result := ⟨0⟩ }) i
    let bad : Expr := .binary .map (.local ⟨0⟩ i) (.builtin .str i) none none ⟨.slice .i64, ⟨7, 9⟩⟩
    let named (name : String) (body : List Stmt) : Function :=
      ⟨name, [], [], body, { locals := #[⟨"seq", .slice .i64, false⟩] }, ⟨0, 0⟩⟩
    let m : Module := ⟨[named "first" [.expr good],
      named "second" [.expr (.binary .and good (.closure [] [] [] [.return [bad]] i) none none i)],
      named "third" [.expr good]]⟩
    (∃ f ∈ m.functions, ∃ e ∈ f.parts, e.IsMalformed) ∧
      ∃ m', m.lower = (.error ⟨.mapWithoutFacts, ⟨7, 9⟩⟩, m') ∧
        ∃ before f after before' f', m.functions = before ++ f :: after ∧
          m'.functions = before' ++ f' :: after ∧
          List.Forall₂ (fun g g' => ∃ n, g.lower = (.ok n, g')) before before' ∧
          f' = { f with body := [], ctx := f'.ctx } ∧
          f.ctx.locals.toList <+: f'.ctx.locals.toList := by
  intro i good bad named m
  have hlower : m.lower = (.error ⟨.mapWithoutFacts, ⟨7, 9⟩⟩, m.lower.2) := Prod.ext rfl rfl
  obtain ⟨before, f, after, before', f', hfs, hfs', -, -, hbefore, hf', hlocals⟩ :=
    m.lower_error_iff.2 _ _ hlower
  exact ⟨m.lower_error_iff.1.1 ⟨_, _, hlower⟩, m.lower.2, hlower, before, f, after, before', f', hfs,
    hfs', hbefore, hf', hlocals⟩

end Rivulet.Ir
