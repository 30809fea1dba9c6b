/-!
# Reports

A stage that checks something never stops at the first mistake: it gives its result and the list of
everything it found on the way. `Report ε α` is such a result, a value together with findings of
type `ε` in the order in which they were made. Sequencing two reports concatenates their findings,
so "what was reported" can be read off the shape of a definition; the lemmas below say exactly
that.
-/

set_option autoImplicit false

namespace Rivulet

/-- A value and what was found while computing it. -/
structure Report (ε α : Type) where
  value : α
  findings : List ε
deriving DecidableEq

namespace Report

variable {ε α β γ : Type}

/-- A value with nothing to report. -/
protected def pure (a : α) : Report ε α := ⟨a, []⟩

/-- Run one report after another. -/
protected def bind (r : Report ε α) (f : α → Report ε β) : Report ε β :=
  let s := f r.value
  ⟨s.value, r.findings ++ s.findings⟩

instance : Monad (Report ε) where
  pure := Report.pure
  bind := Report.bind

/-- Report one finding. -/
def tell (e : ε) : Report ε Unit := ⟨(), [e]⟩

/-- The same report with each finding put differently. -/
def mapFindings {δ : Type} (f : ε → δ) (r : Report ε α) : Report δ α :=
  ⟨r.value, r.findings.map f⟩

@[simp] theorem value_pure (a : α) : (pure a : Report ε α).value = a := rfl

@[simp] theorem findings_pure (a : α) : (pure a : Report ε α).findings = [] := rfl

@[simp] theorem value_bind (r : Report ε α) (f : α → Report ε β) :
    (r >>= f).value = (f r.value).value := rfl

@[simp] theorem findings_bind (r : Report ε α) (f : α → Report ε β) :
    (r >>= f).findings = r.findings ++ (f r.value).findings := rfl

@[simp] theorem value_map (f : α → β) (r : Report ε α) : (f <$> r).value = f r.value := rfl

@[simp] theorem findings_map (f : α → β) (r : Report ε α) :
    (f <$> r).findings = r.findings := List.append_nil _

@[simp] theorem findings_tell (e : ε) : (tell e).findings = [e] := rfl

@[simp] theorem value_mapFindings {δ : Type} (f : ε → δ) (r : Report ε α) :
    (r.mapFindings f).value = r.value := rfl

@[simp] theorem findings_mapFindings {δ : Type} (f : ε → δ) (r : Report ε α) :
    (r.mapFindings f).findings = r.findings.map f := rfl

instance : LawfulMonad (Report ε) := LawfulMonad.mk' _
  (fun _ => by simp only [Functor.map, Report.bind, Function.comp, Report.pure, List.append_nil, id])
  (fun _ _ => by simp only [bind, Report.bind, pure, Report.pure, List.nil_append])
  (fun _ _ _ => by simp only [bind, Report.bind, List.append_assoc])

end Report

end Rivulet
