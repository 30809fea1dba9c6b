import Rivulet.Proofs.Lowering.PairedFrames

set_option autoImplicit false

/-! # Hoisted code

Lowering splits expressions into statements to be run first, and expressions to be evaluated after
them. Two relations say that this split does what the expressions did.

* `Simulates es h ds`: running `h` and then evaluating `ds` goes side by side with evaluating `es`.
* `Pinned es h ds`: running `h` alone goes side by side with evaluating `es`, and after it the values
  of `ds` are settled: evaluating them has no effect, and nothing that comes later changes them.

Expressions that are settled may be evaluated at any later time (`Expr.Pin`). This is why the list
`ds` of `Simulates` may follow after other settled expressions, and why an expression can be spilled.
The lemmas of this module are the algebra of the two relations; the recursion over the code uses
nothing else. -/

namespace Rivulet.Machine

open Ir

/-! ## Running hoisted statements -/

/-- Run statements that do not leave their block. -/
def runHoisted (m : Engine) (fr : Frame) (h : List Stmt) : Run Frame := do
  let (flow, fr) ← execBlock m fr h
  match flow with
  | .next => pure fr
  | _ => Run.stop (.unboundLocal default)

/-- Evaluate expressions after hoisted statements. -/
def evalAfter (m : Engine) (fr : Frame) (h : List Stmt) (es : List Expr) :
    Run (List Value × Frame) := do
  let fr ← runHoisted m fr h
  let vs ← evalList m fr es
  pure (vs, fr)

/-- Two runs that do the same on a store, with the same continuation. -/
theorem Run.bind_apply_congr {α β : Type} {r r' : Run α} {f : α → Run β} {t : Store}
    (h : r t = r' t) : (r >>= f) t = (r' >>= f) t := by
  rw [Run.bind_apply, Run.bind_apply, h]

theorem execBlock_append (m : Engine) (fr : Frame) (h k : List Stmt) :
    execBlock m fr (h ++ k) = (do
      let (flow, fr) ← execBlock m fr h
      match flow with
      | .next => execBlock m fr k
      | flow => pure (flow, fr)) := by
  induction h generalizing fr with
  | nil => simp only [List.nil_append, execBlock, pure_bind]
  | cons st h ih =>
      simp only [List.cons_append, execBlock, bind_assoc]
      refine bind_congr fun r => ?_
      obtain ⟨flow, fr₁⟩ := r
      cases flow with
      | next => exact ih fr₁
      | «break» => simp only [pure_bind]
      | «return» v => simp only [pure_bind]

theorem runHoisted_nil (m : Engine) (fr : Frame) : runHoisted m fr [] = pure fr := by
  simp only [runHoisted, execBlock, pure_bind]

theorem runHoisted_append (m : Engine) (fr : Frame) (h k : List Stmt) :
    runHoisted m fr (h ++ k) = runHoisted m fr h >>= fun fr => runHoisted m fr k := by
  simp only [runHoisted, execBlock_append, bind_assoc]
  refine bind_congr fun r => ?_
  obtain ⟨flow, fr₁⟩ := r
  cases flow with
  | next => simp only [pure_bind]
  | «break» => rfl
  | «return» v => rfl

theorem runHoisted_bind (m : Engine) (fr : Frame) (x : LocalId) (e : Expr) :
    runHoisted m fr [.bind x e] = eval m fr e >>= fun v => fr.bind x v := by
  simp only [runHoisted, execBlock, exec, bind_assoc, pure_bind, bind_pure]

theorem runHoisted_assign (m : Engine) (fr : Frame) (x : LocalId) (e : Expr) :
    runHoisted m fr [.assign x e] = (do
      let v ← eval m fr e
      fr.write x v
      pure fr) := by
  simp only [runHoisted, execBlock, exec, bind_assoc, pure_bind]

theorem runHoisted_if (m : Engine) (fr : Frame) (c : Expr) (a b : List Stmt) :
    runHoisted m fr [.if c a b] = (do
      let v ← eval m fr c
      let test ← asBool v
      if test then runHoisted m fr a else runHoisted m fr b) := by
  simp only [runHoisted, execBlock, exec, bind_assoc]
  refine bind_congr fun v => bind_congr fun test => ?_
  split
  · refine bind_congr fun r => ?_
    obtain ⟨flow, fr₁⟩ := r
    cases flow <;> simp only [pure_bind]
  · refine bind_congr fun r => ?_
    obtain ⟨flow, fr₁⟩ := r
    cases flow <;> simp only [pure_bind]

theorem execBlock_singleton (m : Engine) (fr : Frame) (st : Stmt) :
    execBlock m fr [st] = exec m fr st := by
  rw [execBlock]
  refine Eq.trans (bind_congr fun r => ?_) (bind_pure _)
  obtain ⟨flow, fr₁⟩ := r
  cases flow <;> simp only [execBlock]

theorem evalList_append (m : Engine) (fr : Frame) (es es' : List Expr) :
    evalList m fr (es ++ es') = (do
      let vs ← evalList m fr es
      let us ← evalList m fr es'
      pure (vs ++ us)) := by
  induction es with
  | nil => simp only [List.nil_append, evalList, pure_bind, bind_pure]
  | cons e es ih => simp only [List.cons_append, evalList, ih, bind_assoc, pure_bind]

variable {sigs : Validate.Signatures} {p q : Pairing} {s t t' : Store} {bound : Nat}
  {fr fr' fr₁ : Frame} {m m' : Engine}

/-- Statements after hoisted ones, and what follows on them. Hoisted statements that leave their block
would be a fault that nothing goes side by side with. -/
theorem Beside.execBlock_append {α β : Type} {P : Pairing → Store → α → β → Prop} {o : Outcome α}
    {h k : List Stmt} {next : Flow × Frame → Run β}
    (hb : Beside sigs p t P o
      ((runHoisted m fr h >>= fun fr => execBlock m fr k >>= next) t)) :
    Beside sigs p t P o ((execBlock m fr (h ++ k) >>= next) t) := by
  rw [Machine.execBlock_append, bind_assoc, Run.bind_apply]
  simp only [runHoisted, bind_assoc] at hb
  rw [Run.bind_apply] at hb
  cases hx : execBlock m fr h t with
  | fault e t₁ => rw [hx] at hb; exact hb
  | exhausted => rw [hx] at hb; exact hb
  | ok r t₁ =>
      rw [hx] at hb
      obtain ⟨flow, fr₁⟩ := r
      cases flow with
      | next => simpa only [pure_bind] using hb
      | «break» | «return» _ =>
          cases o with
          | ok a s₁ =>
              obtain ⟨b, t', q, heq, -⟩ := hb
              cases heq
          | exhausted => cases hb
          | fault e s₁ =>
              intro he
              obtain ⟨t', heq, -⟩ := hb he
              cases heq
              exact he.elim

/-! ## Settled expressions -/

/-- An expression whose value does not change any more, whatever is run that binds no locals but
`temps`. -/
def Expr.Pin (bound : Nat) (temps : Set Nat) : Expr → Prop
  | .const _ _ | .function _ _ | .builtin _ _ => True
  | .local x _ => bound ≤ x.index ∧ x.index ∉ temps
  | _ => False

theorem Expr.Pin.mono {temps temps' : Set Nat} (h : temps' ⊆ temps) {d : Expr}
    (hd : Expr.Pin bound temps d) : Expr.Pin bound temps' d := by
  cases d <;> first | exact hd | exact ⟨hd.1, fun hx => hd.2 (h hx)⟩

theorem Expr.Pin.union {temps temps' : Set Nat} {d : Expr} (hd : Expr.Pin bound temps d)
    (hd' : Expr.Pin bound temps' d) : Expr.Pin bound (temps ∪ temps') d := by
  cases d <;> first | exact hd | exact ⟨hd.1, fun hx => hx.elim hd.2 hd'.2⟩

/-- A settled expression keeps its value. -/
theorem Expr.Pin.eval_eq {temps : Set Nat} {d : Expr} (hd : Expr.Pin bound temps d)
    (hfr : Frame.Paired bound p t fr fr') (hadv : Advances p t q t')
    (hkeep : Frame.Keeps temps fr' fr₁) {w : Value} (hw : eval m fr' d t = .ok w t) :
    eval m fr₁ d t' = .ok w t' := by
  cases d with
  | const c i => cases c <;> (cases hw; rfl)
  | function f i => cases hw; rfl
  | builtin b i => cases hw; rfl
  | «local» x i =>
      obtain ⟨hbound, hx⟩ := hd
      simp only [eval] at hw ⊢
      cases hb : fr'.cells.lookup x with
      | none =>
          simp only [Frame.read, Frame.cell, hb] at hw
          cases hw
      | some b =>
          obtain ⟨hlt, hfree⟩ := hfr.temps x b hbound hb
          have hcell := Array.getElem?_eq_getElem hlt
          rw [Frame.read_of_lookup hb hcell] at hw
          cases hw
          have hb₁ : fr₁.cells.lookup x = some b := (hkeep x hx).trans hb
          exact Frame.read_of_lookup hb₁ ((hadv.cell b.index hlt hfree).1.trans hcell)
  | _ => exact hd.elim

/-- Evaluating a settled expression has no effect. -/
theorem Expr.Pin.store_eq {temps : Set Nat} {d : Expr} (hd : Expr.Pin bound temps d) {w : Value}
    (hw : eval m fr' d t = .ok w t') : t' = t := by
  cases d with
  | const c i => cases c <;> (cases hw; rfl)
  | function f i => cases hw; rfl
  | builtin b i => cases hw; rfl
  | «local» x i =>
      simp only [eval, Frame.read, Frame.cell] at hw
      split at hw <;> cases hw
      rfl
  | _ => exact hd.elim

/-- A settled expression has a value, unless it is a temporary that is not bound. -/
theorem Expr.Pin.eval_cases {temps : Set Nat} {d : Expr} (hd : Expr.Pin bound temps d) (m : Engine)
    (fr : Frame) (t : Store) :
    (∃ w, eval m fr d t = .ok w t) ∨ ∃ x, eval m fr d t = .fault (.unboundLocal x) t := by
  cases d with
  | const c i => cases c <;> exact .inl ⟨_, rfl⟩
  | function f i => exact .inl ⟨_, rfl⟩
  | builtin b i => exact .inl ⟨_, rfl⟩
  | «local» x i =>
      simp only [eval, Frame.read, Frame.cell]
      split
      · exact .inl ⟨_, rfl⟩
      · exact .inr ⟨x, rfl⟩
  | _ => exact hd.elim

/-- A list of expressions that was evaluated, one by one. -/
theorem evalList_cons_eq_ok {d : Expr} {ds : List Expr} {ws : List Value}
    (h : evalList m fr' (d :: ds) t = .ok ws t') :
    ∃ w t₁ us, eval m fr' d t = .ok w t₁ ∧ evalList m fr' ds t₁ = .ok us t' ∧ ws = w :: us := by
  simp only [evalList] at h
  cases hw : eval m fr' d t with
  | fault e t₁ => rw [Run.bind_apply_of_fault hw] at h; cases h
  | exhausted => rw [Run.bind_apply, hw] at h; cases h
  | ok w t₁ =>
      rw [Run.bind_apply_of_ok hw] at h
      cases hus : evalList m fr' ds t₁ with
      | fault e t₂ => rw [Run.bind_apply_of_fault hus] at h; cases h
      | exhausted => rw [Run.bind_apply, hus] at h; cases h
      | ok us t₂ =>
          rw [Run.bind_apply_of_ok hus] at h
          cases h
          exact ⟨w, t₁, us, rfl, hus, rfl⟩

/-- How long a list of values is that comes from a list of expressions. -/
theorem length_of_evalList : ∀ {ds : List Expr} {vs : List Value} {t t' : Store},
    evalList m fr' ds t = .ok vs t' → vs.length = ds.length
  | [], vs, t, t', h => by cases h; rfl
  | d :: ds, vs, t, t', h => by
      obtain ⟨w, t₁, us, -, hus, rfl⟩ := evalList_cons_eq_ok h
      rw [List.length_cons, List.length_cons, length_of_evalList hus]

/-- What follows on the values of a list of expressions may rely on their number. -/
theorem evalList_bind_congr {α : Type} {f g : List Value → Run α} {es : List Expr}
    (hfg : ∀ vs, vs.length = es.length → f vs = g vs) :
    evalList m fr es >>= f = evalList m fr es >>= g := by
  funext t
  rw [Run.bind_apply, Run.bind_apply]
  cases hvs : evalList m fr es t with
  | ok vs t' => simp only [hfg vs (length_of_evalList hvs)]
  | fault e t' => rfl
  | exhausted => rfl

/-- Settled expressions keep their values. -/
theorem evalList_eq_of_pin {temps : Set Nat} (hfr : Frame.Paired bound p t fr fr')
    (hadv : Advances p t q t') (hkeep : Frame.Keeps temps fr' fr₁) {ds : List Expr}
    (hds : ∀ d ∈ ds, Expr.Pin bound temps d) {ws : List Value}
    (hws : evalList m fr' ds t = .ok ws t) : evalList m fr₁ ds t' = .ok ws t' := by
  induction ds generalizing ws with
  | nil => cases hws; rfl
  | cons d ds ih =>
      obtain ⟨w, t₁, us, hw, hus, rfl⟩ := evalList_cons_eq_ok hws
      have hd := hds d (by simp)
      have ht₁ := hd.store_eq hw
      rw [ht₁] at hw hus
      simp only [evalList]
      rw [Run.bind_apply_of_ok (hd.eval_eq hfr hadv hkeep hw),
        Run.bind_apply_of_ok (ih (fun d hd => hds d (List.mem_cons_of_mem _ hd)) hus)]
      rfl

/-! ## The two relations -/

section Relations

variable (sigs m m' bound)

/-- Running `h` and then evaluating `ds`, after other settled expressions, goes side by side with
evaluating `es`. No locals are bound but `temps`. -/
structure Simulates (temps : Set Nat) (es : List Expr) (h : List Stmt) (ds : List Expr) : Prop where
  run_after : ∀ {p : Pairing} {s t : Store} {fr fr' : Frame} {ps : List Expr} {ws : List Value},
    s.Paired sigs p t → Frame.Paired bound p t fr fr' → (∀ d ∈ ps, Expr.Pin bound temps d) →
    evalList m' fr' ps t = .ok ws t →
    Beside sigs p t
      (fun q t' vs r => Frame.Paired bound q t' fr r.2 ∧ Frame.Keeps temps fr' r.2 ∧
        ∃ us, r.1 = ws ++ us ∧ PairedValues sigs q vs us)
      (evalList m fr es s) (evalAfter m' fr' h (ps ++ ds) t)

/-- Running `h` goes side by side with evaluating `es`, and settles the values of `ds`. No locals are
bound but `temps`. -/
structure Pinned (temps : Set Nat) (es : List Expr) (h : List Stmt) (ds : List Expr) : Prop where
  pin : ∀ d ∈ ds, Expr.Pin bound ∅ d
  run : ∀ {p : Pairing} {s t : Store} {fr fr' : Frame},
    s.Paired sigs p t → Frame.Paired bound p t fr fr' →
    Beside sigs p t
      (fun q t' vs fr₁ => Frame.Paired bound q t' fr fr₁ ∧ Frame.Keeps temps fr' fr₁ ∧
        ∃ us, evalList m' fr₁ ds t' = .ok us t' ∧ PairedValues sigs q vs us)
      (evalList m fr es s) (runHoisted m' fr' h t)

end Relations

variable {temps temps' : Set Nat} {es es' ds ds' : List Expr} {h h' : List Stmt}

/-- `Simulates` without other settled expressions. -/
theorem Simulates.run (hsim : Simulates sigs bound m m' temps es h ds) (hs : s.Paired sigs p t)
    (hfr : Frame.Paired bound p t fr fr') :
    Beside sigs p t
      (fun q t' vs r => Frame.Paired bound q t' fr r.2 ∧ Frame.Keeps temps fr' r.2 ∧
        PairedValues sigs q vs r.1)
      (evalList m fr es s) (evalAfter m' fr' h ds t) := by
  have hnil : evalList m' fr' [] t = .ok [] t := rfl
  refine (hsim.run_after hs hfr (fun d hd => by cases hd) hnil).weaken ?_
  rintro q t' vs r - ⟨hfr', hkeep, us, hus, hvs⟩
  rw [List.nil_append] at hus
  exact ⟨hfr', hkeep, hus ▸ hvs⟩

theorem Simulates.mono (hsim : Simulates sigs bound m m' temps es h ds) (hsub : temps ⊆ temps') :
    Simulates sigs bound m m' temps' es h ds := by
  refine ⟨fun {p s t fr fr' ps ws} hs hfr hps hws => ?_⟩
  refine (hsim.run_after hs hfr (fun d hd => (hps d hd).mono hsub) hws).weaken ?_
  rintro q t' vs r - ⟨hfr', hkeep, hus⟩
  exact ⟨hfr', hkeep.mono hsub, hus⟩

theorem Pinned.mono (hpin : Pinned sigs bound m m' temps es h ds) (hsub : temps ⊆ temps') :
    Pinned sigs bound m m' temps' es h ds := by
  refine ⟨hpin.pin, fun hs hfr => (hpin.run hs hfr).weaken ?_⟩
  rintro q t' vs r - ⟨hfr', hkeep, hus⟩
  exact ⟨hfr', hkeep.mono hsub, hus⟩

theorem Simulates.nil : Simulates sigs bound m m' temps [] [] [] := by
  refine ⟨fun {p s t fr fr' ps ws} hs hfr _ hws => ?_⟩
  rw [List.append_nil]
  simp only [evalAfter, runHoisted_nil, pure_bind]
  rw [Run.bind_apply_of_ok hws]
  exact .pure hs ⟨hfr, .refl _ _, [], by simp, .nil⟩

/-- Where nothing is hoisted, nothing is bound. -/
theorem Simulates.of_nil (hsim : Simulates sigs bound m m' temps es [] ds) :
    Simulates sigs bound m m' ∅ es [] ds := by
  refine ⟨fun {p s t fr fr' ps ws} hs hfr _ hws => ?_⟩
  have heq : evalAfter m' fr' [] (ps ++ ds) t
      = (evalAfter m' fr' [] ds >>= fun r => pure (ws ++ r.1, fr')) t := by
    simp only [evalAfter, runHoisted_nil, pure_bind, evalList_append, bind_assoc]
    rw [Run.bind_apply_of_ok hws]
  rw [heq, ← bind_pure (evalList m fr es)]
  refine Beside.bind (hsim.run hs hfr) ?_
  rintro q s₁ t₁ vs ⟨us, fr₁⟩ hadv hs₁ ⟨-, -, hvs⟩
  exact .pure hs₁ ⟨hfr.advance hadv, .refl _ _, us, rfl, hvs⟩

/-- Expressions that hoist nothing are evaluated after those before them. -/
theorem Simulates.append (hsim : Simulates sigs bound m m' temps es h ds)
    (hsim' : Simulates sigs bound m m' temps es' [] ds') :
    Simulates sigs bound m m' temps (es ++ es') h (ds ++ ds') := by
  refine ⟨fun {p s t fr fr' ps ws} hs hfr hps hws => ?_⟩
  have heq : evalAfter m' fr' h (ps ++ (ds ++ ds')) = (do
      let r ← evalAfter m' fr' h (ps ++ ds)
      let us ← evalList m' r.2 ds'
      pure (r.1 ++ us, r.2)) := by
    simp only [evalAfter, ← List.append_assoc, evalList_append _ _ (ps ++ ds), bind_assoc, pure_bind]
  rw [heq, evalList_append]
  refine Beside.bind (hsim.run_after hs hfr hps hws) ?_
  rintro q s₁ t₁ vs ⟨_, fr₁⟩ hadv hs₁ ⟨hfr₁, hkeep, us, rfl, hvs⟩
  have hrun := hsim'.run hs₁ hfr₁
  simp only [evalAfter, runHoisted_nil, pure_bind] at hrun
  have heq' : (do
      let us' ← evalList m' fr₁ ds'
      pure ((ws ++ us) ++ us', fr₁) : Run (List Value × Frame)) = (do
      let r ← (do
        let us' ← evalList m' fr₁ ds'
        pure (us', fr₁) : Run (List Value × Frame))
      pure ((ws ++ us) ++ r.1, r.2)) := by
    simp only [bind_assoc, pure_bind]
  rw [heq']
  refine Beside.bind hrun ?_
  rintro q₂ s₂ t₂ vs' ⟨us', fr₂⟩ hadv₂ hs₂ ⟨hfr₂, hkeep₂, hvs'⟩
  refine .pure hs₂ ⟨hfr₂, hkeep.trans hkeep₂, us ++ us', by simp, ?_⟩
  exact List.rel_append (hvs.mono hadv₂.le) hvs'

/-- Expressions after settled ones. -/
theorem Pinned.simulates_append (hpin : Pinned sigs bound m m' temps es h ds)
    (hsim : Simulates sigs bound m m' temps' es' h' ds') (hsub : temps' ⊆ temps)
    (hds : ∀ d ∈ ds, Expr.Pin bound temps' d) :
    Simulates sigs bound m m' temps (es ++ es') (h ++ h') (ds ++ ds') := by
  refine ⟨fun {p s t fr fr' ps ws} hs hfr hps hws => ?_⟩
  have heq : evalAfter m' fr' (h ++ h') (ps ++ (ds ++ ds'))
      = runHoisted m' fr' h >>= fun fr => evalAfter m' fr h' ((ps ++ ds) ++ ds') := by
    simp only [evalAfter, runHoisted_append, bind_assoc, List.append_assoc]
  rw [heq, evalList_append]
  refine Beside.bind (hpin.run hs hfr) ?_
  rintro q s₁ t₁ vs fr₁ hadv hs₁ ⟨hfr₁, hkeep, us, hus, hvs⟩
  -- what was settled before stays so while `h` and `h'` are run
  have hws₁ : evalList m' fr₁ ps t₁ = .ok ws t₁ := evalList_eq_of_pin hfr hadv hkeep hps hws
  have hpins : evalList m' fr₁ (ps ++ ds) t₁ = .ok (ws ++ us) t₁ := by
    rw [evalList_append, Run.bind_apply_of_ok hws₁, Run.bind_apply_of_ok hus]
    rfl
  have hall : ∀ d ∈ ps ++ ds, Expr.Pin bound temps' d := by
    intro d hd
    rcases List.mem_append.1 hd with hd | hd
    · exact (hps d hd).mono hsub
    · exact hds d hd
  have hrun := hsim.run_after hs₁ hfr₁ hall hpins
  rw [← bind_pure (evalAfter m' fr₁ h' (ps ++ ds ++ ds'))]
  refine Beside.bind hrun ?_
  rintro q₂ s₂ t₂ vs' ⟨_, fr₂⟩ hadv₂ hs₂ ⟨hfr₂, hkeep₂, us', rfl, hvs'⟩
  refine .pure hs₂ ⟨hfr₂, hkeep.trans (hkeep₂.mono hsub), us ++ us', by simp, ?_⟩
  exact List.rel_append (hvs.mono hadv₂.le) hvs'

/-- What is settled is simulated. -/
theorem Pinned.simulates (hpin : Pinned sigs bound m m' temps es h ds) :
    Simulates sigs bound m m' temps es h ds := by
  have hsim := hpin.simulates_append Simulates.nil (Set.empty_subset temps) hpin.pin
  simpa using hsim

theorem Pinned.append (hpin : Pinned sigs bound m m' temps es h ds)
    (hpin' : Pinned sigs bound m m' temps' es' h' ds') (hsub : temps' ⊆ temps)
    (hds : ∀ d ∈ ds, Expr.Pin bound temps' d) :
    Pinned sigs bound m m' temps (es ++ es') (h ++ h') (ds ++ ds') := by
  refine ⟨?_, fun {p s t fr fr'} hs hfr => ?_⟩
  · intro d hd
    rcases List.mem_append.1 hd with hd | hd
    · exact hpin.pin d hd
    · exact hpin'.pin d hd
  rw [runHoisted_append, evalList_append]
  refine Beside.bind (hpin.run hs hfr) ?_
  rintro q s₁ t₁ vs fr₁ hadv hs₁ ⟨hfr₁, hkeep, us, hus, hvs⟩
  rw [← bind_pure (runHoisted m' fr₁ h')]
  refine Beside.bind (hpin'.run hs₁ hfr₁) ?_
  rintro q₂ s₂ t₂ vs' fr₂ hadv₂ hs₂ ⟨hfr₂, hkeep₂, us', hus', hvs'⟩
  refine .pure hs₂ ⟨hfr₂, hkeep.trans (hkeep₂.mono hsub), us ++ us', ?_, ?_⟩
  · rw [evalList_append, Run.bind_apply_of_ok (evalList_eq_of_pin hfr₁ hadv₂ hkeep₂ hds hus),
      Run.bind_apply_of_ok hus']
    rfl
  · exact List.rel_append (hvs.mono hadv₂.le) hvs'

/-! ## Single expressions -/

/-- One expression and what becomes of it. -/
theorem Simulates.run_one {e d : Expr} (hsim : Simulates sigs bound m m' temps [e] h [d])
    (hs : s.Paired sigs p t) (hfr : Frame.Paired bound p t fr fr') :
    Beside sigs p t
      (fun q t' v r => Frame.Paired bound q t' fr r.2 ∧ Frame.Keeps temps fr' r.2 ∧
        v.Paired sigs q r.1)
      (eval m fr e s) ((do
        let fr ← runHoisted m' fr' h
        let w ← eval m' fr d
        pure (w, fr)) t) := by
  have hrun := Beside.with_direct (hsim.run hs hfr)
  have heq : eval m fr e = evalList m fr [e] >>= fun vs => pure (vs.headD .unit) := by
    simp only [evalList, bind_assoc, pure_bind, List.headD_cons, bind_pure]
  have heq' : (do
      let fr ← runHoisted m' fr' h
      let w ← eval m' fr d
      pure (w, fr) : Run (Value × Frame))
        = evalAfter m' fr' h [d] >>= fun r => pure (r.1.headD .unit, r.2) := by
    simp only [evalAfter, evalList, bind_assoc, pure_bind, List.headD_cons]
  rw [heq, heq']
  refine Beside.bind hrun ?_
  rintro q s₁ t₁ vs ⟨us, fr₁⟩ - hs₁ ⟨⟨hfr₁, hkeep, hvs⟩, s₂, hev⟩
  obtain ⟨v, rfl⟩ := List.length_eq_one_iff.1 (length_of_evalList hev)
  obtain ⟨w, us', hvw, hus', rfl⟩ := List.forall₂_cons_left_iff.1 hvs
  exact .pure hs₁ ⟨hfr₁, hkeep, hvw⟩

/-- An expression that is bound to a new temporary is settled. -/
theorem Simulates.bind {e d : Expr} (hsim : Simulates sigs bound m m' temps [e] h [d]) {x : LocalId}
    (hx : bound ≤ x.index) (i : Info) :
    Pinned sigs bound m m' (temps ∪ {x.index}) [e] (h ++ [.bind x d]) [.local x i] := by
  refine ⟨?_, fun {p s t fr fr'} hs hfr => ?_⟩
  · intro d hd
    rw [List.mem_singleton.1 hd]
    exact ⟨hx, Set.notMem_empty _⟩
  have heq : runHoisted m' fr' (h ++ [.bind x d]) = (do
      let fr ← runHoisted m' fr' h
      let w ← eval m' fr d
      pure (w, fr)) >>= fun r => r.2.bind x r.1 := by
    simp only [runHoisted_append, runHoisted_bind, bind_assoc, pure_bind]
  rw [heq]
  simp only [evalList]
  refine Beside.bind (hsim.run_one hs hfr) ?_
  rintro q s₁ t₁ v ⟨w, fr₁⟩ hadv hs₁ ⟨hfr₁, hkeep, hvw⟩
  obtain ⟨fr₂, t₂, hbind, hext, hs₂, hfr₂, hkeep₂, b, hb, -, hw⟩ := Frame.bindTemp hs₁ hfr₁ hx w
  simp only [pure_bind]
  rw [hbind]
  refine Beside.ahead (hext.advances q) (.ok hs₂ ⟨hfr₂, ?_, [w], ?_, .cons hvw .nil⟩)
  · exact (hkeep.mono Set.subset_union_left).trans (hkeep₂.mono Set.subset_union_right)
  · simp only [eval]
    rw [Run.bind_apply_of_ok (Frame.read_of_lookup hb hw)]
    rfl

/-- An expression that is stable is settled as it is. -/
theorem Simulates.settle {e d : Expr} (hsim : Simulates sigs bound m m' temps [e] h [d])
    (hd : Expr.Pin bound ∅ d) : Pinned sigs bound m m' temps [e] h [d] := by
  refine ⟨fun d' hd' => by rw [List.mem_singleton.1 hd']; exact hd, fun {p s t fr fr'} hs hfr => ?_⟩
  refine (Beside.drop_last (hsim.run hs hfr) fun fr₁ t₁ => ?_).weaken ?_
  · simp only [evalList, bind_assoc, pure_bind]
    rcases hd.eval_cases m' fr₁ t₁ with ⟨w, hw⟩ | ⟨x, hx⟩
    · exact .inl ⟨([w], fr₁), by rw [Run.bind_apply_of_ok hw]; rfl⟩
    · exact .inr ⟨_, id, by rw [Run.bind_apply_of_fault hx]⟩
  · rintro q t' vs fr₁ - ⟨⟨us, fr₂⟩, hus, hfr₂, hkeep, hvs⟩
    cases hev : evalList m' fr₁ [d] t' with
    | fault e t₁ => rw [Run.bind_apply_of_fault hev] at hus; cases hus
    | exhausted => rw [Run.bind_apply, hev] at hus; cases hus
    | ok us' t₁ =>
        rw [Run.bind_apply_of_ok hev] at hus
        cases hus
        exact ⟨hfr₂, hkeep, us, rfl, hvs⟩

/-- **Operations on simulated operands.** If an expression evaluates its operands and then does an
operation on their values, and the operation respects pairing, then it is simulated when its operands
are. -/
theorem Simulates.compose {e e' : Expr} {f g : Frame → List Value → Run Value}
    (hsim : Simulates sigs bound m m' temps es h ds)
    (he : ∀ fr, eval m fr e = evalList m fr es >>= f fr)
    (he' : ∀ fr, eval m' fr e' = evalList m' fr ds >>= g fr)
    (hfg : ∀ {p : Pairing} {s t : Store} {fr fr' : Frame} {vs ws : List Value}, s.Paired sigs p t →
      Frame.Paired bound p t fr fr' → PairedValues sigs p vs ws →
      Beside sigs p t (fun q _ v w => v.Paired sigs q w) (f fr vs s) (g fr' ws t)) :
    Simulates sigs bound m m' temps [e] h [e'] := by
  refine ⟨fun {p s t fr fr' ps ws} hs hfr hps hws => ?_⟩
  have hlen : ws.length = ps.length := length_of_evalList hws
  have heq : evalAfter m' fr' h (ps ++ [e']) = (do
      let r ← evalAfter m' fr' h (ps ++ ds)
      let w ← g r.2 (r.1.drop ps.length)
      pure (r.1.take ps.length ++ [w], r.2)) := by
    simp only [evalAfter, evalList_append, evalList, he', bind_assoc, pure_bind]
    refine bind_congr fun fr₁ => evalList_bind_congr fun ws hws => bind_congr fun us => ?_
    rw [← hws, List.drop_left, List.take_left]
  have heq' : evalList m fr [e] = evalList m fr es >>= fun vs => f fr vs >>= fun v => pure [v] := by
    simp only [evalList, he, bind_assoc, pure_bind]
  rw [heq, heq']
  refine Beside.bind (hsim.run_after hs hfr hps hws) ?_
  rintro q s₁ t₁ vs ⟨_, fr₁⟩ - hs₁ ⟨hfr₁, hkeep, us, rfl, hvs⟩
  rw [← hlen, List.drop_left, List.take_left]
  refine Beside.bind (hfg hs₁ hfr₁ hvs) ?_
  intro q₂ s₂ t₂ v w hadv hs₂ hvw
  exact .pure hs₂ ⟨hfr₁.advance hadv, hkeep, [w], rfl, .cons hvw .nil⟩

end Rivulet.Machine
