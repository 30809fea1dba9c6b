import Rivulet.Proofs.Lowering.Spilling

set_option autoImplicit false

/-! # Lowered statements

What lowering makes of statements, and of the two kinds of expressions that become statements with a
condition: `&&` and `||` whose right operand hoists anything, and loops whose condition does. -/

namespace Rivulet.Machine

open Ir Lowering

/-- Execution goes on in the same way on both sides. -/
def FlowPaired (sigs : Validate.Signatures) (p : Pairing) : Flow → Flow → Prop
  | .next, .next => True
  | .return v, .return w => v.Paired sigs p w
  | _, _ => False

/-- What holds after a piece of code on both sides. -/
def FlowsPaired (sigs : Validate.Signatures) (bound : Nat) (q : Pairing) (t : Store)
    (r r' : Flow × Frame) : Prop :=
  FlowPaired sigs q r.1 r'.1 ∧ Frame.Paired bound q t r.2 r'.2

/-- What lowering makes of a block: it goes side by side with the block. -/
structure BlockLowered (sigs : Validate.Signatures) (bound : Nat) (m m' : Engine)
    (ss ss' : List Stmt) : Prop where
  run : ∀ {p : Pairing} {s t : Store} {fr fr' : Frame}, s.Paired sigs p t →
    Frame.Paired bound p t fr fr' →
    Beside sigs p t (FlowsPaired sigs bound) (execBlock m fr ss s) (execBlock m' fr' ss' t)

variable {sigs : Validate.Signatures} {p q : Pairing} {s t t' : Store} {bound : Nat}
  {fr fr' : Frame} {m m' : Engine} {temps temps₁ temps₂ : Set Nat} {es ds : List Expr}
  {h h₁ h₂ : List Stmt}

theorem BlockLowered.nil : BlockLowered sigs bound m m' [] [] :=
  ⟨fun hs hfr => .pure hs ⟨trivial, hfr⟩⟩

/-- One statement after the other. -/
theorem BlockLowered.cons {st : Stmt} {ss ss₁ ss₂ : List Stmt}
    (hst : BlockLowered sigs bound m m' [st] ss₁) (hss : BlockLowered sigs bound m m' ss ss₂) :
    BlockLowered sigs bound m m' (st :: ss) (ss₁ ++ ss₂) := by
  refine ⟨fun {p s t fr fr'} hs hfr => ?_⟩
  rw [← List.singleton_append, execBlock_append, execBlock_append]
  refine Beside.bind (hst.run hs hfr) ?_
  rintro q s₁ t₁ ⟨flow, fr₁⟩ ⟨flow', fr₁'⟩ - hs₁ ⟨hflow, hfr₁⟩
  cases flow with
  | next =>
      cases flow' with
      | next => exact hss.run hs₁ hfr₁
      | «break» | «return» _ => exact hflow.elim
  | «break» => exact hflow.elim
  | «return» v =>
      cases flow' with
      | next | «break» => exact hflow.elim
      | «return» w => exact .pure hs₁ ⟨hflow, hfr₁⟩

/-- A statement that evaluates its operands and then does something with their values. -/
theorem Simulates.stmt {st st' : Stmt} {f g : Frame → List Value → Run (Flow × Frame)}
    (hsim : Simulates sigs bound m m' temps es h ds)
    (he : ∀ fr, exec m fr st = evalList m fr es >>= f fr)
    (he' : ∀ fr, exec m' fr st' = evalList m' fr ds >>= g fr)
    (hfg : ∀ {p : Pairing} {s t : Store} {fr fr' : Frame} {vs ws : List Value}, s.Paired sigs p t →
      Frame.Paired bound p t fr fr' → PairedValues sigs p vs ws →
      Beside sigs p t (FlowsPaired sigs bound) (f fr vs s) (g fr' ws t)) :
    BlockLowered sigs bound m m' [st] (h ++ [st']) := by
  refine ⟨fun {p s t fr fr'} hs hfr => ?_⟩
  have heq : (runHoisted m' fr' h >>= fun fr => execBlock m' fr [st'] >>= pure)
      = evalAfter m' fr' h ds >>= fun r => g r.2 r.1 := by
    simp only [evalAfter, bind_assoc, pure_bind, execBlock_singleton, he', bind_pure]
  rw [execBlock_singleton, he, ← bind_pure (execBlock m' fr' (h ++ [st']))]
  refine Beside.execBlock_append ?_
  rw [heq]
  refine Beside.bind (hsim.run hs hfr) ?_
  rintro q s₁ t₁ vs ⟨ws, fr₁⟩ - hs₁ ⟨hfr₁, -, hvs⟩
  exact hfg hs₁ hfr₁ hvs

/-! ## Short circuits -/

/-- The test of a short circuit, on the temporary that holds the left operand. -/
theorem eval_test {op : BinaryOp} {x : LocalId} {b : Bool} (hx : fr.Holds t x (.bool b)) (j : Info) :
    eval m fr (if op = .and then .local x j else negate (.local x j)) t
      = .ok (.bool (needsRight op b)) t := by
  unfold needsRight
  split
  · exact hx.eval_eq m j
  · simp only [negate, eval]
    rw [Run.bind_apply_of_ok hx.read_eq]
    rfl

/-- The right operand of a short circuit overwrites the temporary `x` that holds the left one. Its cell
`c` is newer than the store `t` at the start, so nothing that was there before changes. -/
theorem Simulates.overwrite {t₁ : Store} {fr₁ : Frame} {r dr : Expr}
    (hr : Simulates sigs bound m m' temps₂ [r] h₂ [dr]) {x : LocalId} (hx : bound ≤ x.index)
    (hx₂ : x.index ∉ temps₂) (hadv : Advances p t q t₁) (hs : s.Paired sigs q t₁)
    (hfr : Frame.Paired bound q t₁ fr fr₁) {c : CellAddr} (hc : fr₁.cells.lookup x = some c)
    (hnew : t.cells.size ≤ c.index) :
    Beside sigs p t
      (fun q' t' vs fr' => Frame.Paired bound q' t' fr fr' ∧ Frame.Keeps temps₂ fr₁ fr' ∧
        ∃ b, vs = [.bool b] ∧ fr'.Holds t' x (.bool b))
      ((do
        let w ← eval m fr r
        let b ← asBool w
        pure [Value.bool b]) s)
      (runHoisted m' fr₁ (h₂ ++ [.assign x dr]) t₁) := by
  have heq : runHoisted m' fr₁ (h₂ ++ [.assign x dr]) = (do
      let fr ← runHoisted m' fr₁ h₂
      let w ← eval m' fr dr
      pure (w, fr)) >>= fun r => r.2.write x r.1 >>= fun _ => pure r.2 := by
    simp only [runHoisted_append, runHoisted_assign, bind_assoc, pure_bind]
  rw [heq]
  refine Beside.bind_from (hr.run_one hs hfr) ?_
  rintro q₂ s₂ t₂ v ⟨w, fr₂⟩ hadv₂ hs₂ ⟨hfr₂, hkeep₂, hvw⟩
  -- the code in between has not bound `x` again, so the cell is the same and still free
  have hc₂ : fr₂.cells.lookup x = some c := (hkeep₂ x hx₂).trans hc
  obtain ⟨hlt, hfree⟩ := hfr₂.temps x c hx hc₂
  let t₃ : Store := { t₂ with cells := t₂.cells.setIfInBounds c.index w }
  have hwrite : fr₂.write x w t₂ = .ok () t₃ := by
    rw [Frame.write, Frame.cell_of_lookup hc₂, pure_bind]
    rfl
  rw [Run.bind_apply_of_ok hwrite]
  cases v with
  | bool b =>
      obtain rfl : w = .bool b := hvw
      have hadv₃ : Advances p t q₂ t₃ := (hadv.trans hadv₂).writeCell hnew _
      have hfr₃ : Frame.Paired bound q₂ t₃ fr fr₂ :=
        ⟨hfr₂.locals, fun y d hy hd => by simpa [t₃] using hfr₂.temps y d hy hd⟩
      have hcell : t₃.cells[c.index]? = some (.bool b) := by simp [t₃, hlt]
      exact ⟨fr₂, t₃, q₂, rfl, hadv₃, hs₂.writeFree hfree _, hfr₃, hkeep₂, b, rfl, c, hc₂, hcell⟩
  | _ => exact .clash

/-- A short circuit settles its value in a temporary. -/
theorem Pinned.shortCircuit {op : BinaryOp} (hop : op = .and ∨ op = .or) {l r dl dr : Expr}
    (hl : Simulates sigs bound m m' temps₁ [l] h₁ [dl])
    (hr : Simulates sigs bound m m' temps₂ [r] h₂ [dr]) {x : LocalId} (hx : bound ≤ x.index)
    (hx₂ : x.index ∉ temps₂) (hsub₁ : temps₁ ⊆ temps) (hsub₂ : temps₂ ⊆ temps)
    (hxt : x.index ∈ temps) (common : Option Ir.Ty) (facts : Option MapFacts) (i j : Info) :
    Pinned sigs bound m m' temps [.binary op l r common facts i]
      (h₁ ++ [.bind x dl, .if (if op = .and then .local x j else negate (.local x j))
        (h₂ ++ [.assign x dr]) []]) [.local x j] := by
  refine ⟨?_, fun {p s t fr fr'} hs hfr => ?_⟩
  · intro d hd
    rw [List.mem_singleton.1 hd]
    exact ⟨hx, Set.notMem_empty _⟩
  have heq : runHoisted m' fr' (h₁ ++ [.bind x dl,
      .if (if op = .and then .local x j else negate (.local x j)) (h₂ ++ [.assign x dr]) []])
      = (do
        let fr ← runHoisted m' fr' h₁
        let w ← eval m' fr dl
        pure (w, fr)) >>= fun r => r.2.bind x r.1 >>= fun fr => runHoisted m' fr
          [.if (if op = .and then .local x j else negate (.local x j)) (h₂ ++ [.assign x dr]) []] := by
    rw [← List.singleton_append, runHoisted_append]
    simp only [runHoisted_append m' _ [_], runHoisted_bind, bind_assoc, pure_bind]
  have heq' : evalList m fr [.binary op l r common facts i] = eval m fr l >>= fun v => (do
      let b ← asBool v
      if needsRight op b then
        let w ← eval m fr r
        let c ← asBool w
        pure [.bool c]
      else pure [.bool b]) := by
    simp only [evalList, eval_logical hop, bind_assoc, pure_bind]
    refine bind_congr fun v => bind_congr fun b => ?_
    split <;> simp only [bind_assoc, pure_bind]
  rw [heq, heq']
  refine Beside.bind_from (hl.run_one hs hfr) ?_
  rintro q s₁ t₁ v ⟨w, fr₁⟩ hadv₁ hs₁ ⟨hfr₁, hkeep₁, hvw⟩
  obtain ⟨fr₂, t₂, hbind, hext, hs₂, hfr₂, hkeep₂, c, hc, hnew, hcell⟩ :=
    Frame.bindTemp hs₁ hfr₁ hx w
  have hadv₂ := hadv₁.trans (hext.advances q)
  have hkeep : Frame.Keeps temps fr' fr₂ :=
    (hkeep₁.mono hsub₁).trans (hkeep₂.mono (Set.singleton_subset_iff.2 hxt))
  have hresult : ∀ {q : Pairing} {t' : Store} {fr₃ : Frame} {b : Bool},
      fr₃.Holds t' x (.bool b) → ∃ ws, evalList m' fr₃ [.local x j] t' = .ok ws t' ∧
        PairedValues sigs q [.bool b] ws := by
    intro q t' fr₃ b hb
    refine ⟨[.bool b], ?_, .cons rfl .nil⟩
    rw [evalList, Run.bind_apply_of_ok (hb.eval_eq m' j)]
    rfl
  rw [Run.bind_apply_of_ok hbind]
  cases v with
  | bool b =>
      obtain rfl : w = .bool b := hvw
      have hholds : fr₂.Holds t₂ x (.bool b) := ⟨c, hc, hcell⟩
      simp only [asBool, pure_bind, runHoisted_if]
      rw [Run.bind_apply_of_ok (eval_test hholds j)]
      simp only [pure_bind]
      cases needsRight op b with
      | false =>
          -- the temporary holds the value already
          simp only [Bool.false_eq_true, if_false, runHoisted_nil]
          exact Beside.ahead hadv₂ (.pure hs₂ ⟨hfr₂, hkeep, hresult hholds⟩)
      | true =>
          simp only [if_true]
          refine (hr.overwrite hx hx₂ hadv₂ hs₂ hfr₂ hc (hadv₁.cells_size.trans hnew)).weaken ?_
          rintro q₃ t₃ vs fr₃ - ⟨hfr₃, hkeep₃, b', rfl, hb'⟩
          exact ⟨hfr₃, hkeep.trans (hkeep₃.mono hsub₂), hresult hb'⟩
  | _ => exact .clash

/-! ## Loops -/

/-- One round of a loop, with what comes after it. -/
def loopRound (cond : Frame → Run Bool) (body next : Frame → Run (Flow × Frame)) (fr : Frame) :
    Run (Flow × Frame) := do
  let b ← cond fr
  if b then
    let (flow, fr) ← body fr
    match flow with
    | .next => next fr
    | .break => pure (.next, fr)
    | .return v => pure (.return v, fr)
  else pure (.next, fr)

/-- Loops go side by side if their rounds do. -/
theorem whileLoop_beside {cond cond' : Frame → Run Bool} {body body' : Frame → Run (Flow × Frame)}
    (hround : ∀ {next next' : Frame → Run (Flow × Frame)},
      (∀ {p : Pairing} {s t : Store} {fr fr' : Frame}, s.Paired sigs p t →
        Frame.Paired bound p t fr fr' →
        Beside sigs p t (FlowsPaired sigs bound) (next fr s) (next' fr' t)) →
      ∀ {p : Pairing} {s t : Store} {fr fr' : Frame}, s.Paired sigs p t →
        Frame.Paired bound p t fr fr' →
        Beside sigs p t (FlowsPaired sigs bound) (loopRound cond body next fr s)
          (loopRound cond' body' next' fr' t)) (n : Nat) :
    ∀ {p : Pairing} {s t : Store} {fr fr' : Frame}, s.Paired sigs p t →
      Frame.Paired bound p t fr fr' →
      Beside sigs p t (FlowsPaired sigs bound) (whileLoop cond body n fr s)
        (whileLoop cond' body' n fr' t) := by
  induction n with
  | zero => exact fun _ _ => rfl
  | succ n ih => exact fun hs hfr => hround ih hs hfr

/-- What follows on the body of a loop. -/
theorem loopRound_body {next next' : Frame → Run (Flow × Frame)}
    (hnext : ∀ {p : Pairing} {s t : Store} {fr fr' : Frame}, s.Paired sigs p t →
      Frame.Paired bound p t fr fr' →
      Beside sigs p t (FlowsPaired sigs bound) (next fr s) (next' fr' t))
    {b b' : List Stmt} (hb : BlockLowered sigs bound m m' b b') (hs : s.Paired sigs p t)
    (hfr : Frame.Paired bound p t fr fr') :
    Beside sigs p t (FlowsPaired sigs bound)
      ((do
        let (flow, fr) ← execBlock m fr b
        match flow with
        | .next => next fr
        | .break => pure (.next, fr)
        | .return v => pure (.return v, fr)) s)
      ((do
        let (flow, fr) ← execBlock m' fr' b'
        match flow with
        | .next => next' fr
        | .break => pure (.next, fr)
        | .return v => pure (.return v, fr)) t) := by
  refine Beside.bind (hb.run hs hfr) ?_
  rintro q s₁ t₁ ⟨flow, fr₁⟩ ⟨flow', fr₁'⟩ - hs₁ ⟨hflow, hfr₁⟩
  cases flow with
  | next =>
      cases flow' with
      | next => exact hnext hs₁ hfr₁
      | «break» | «return» _ => exact hflow.elim
  | «break» => exact hflow.elim
  | «return» v =>
      cases flow' with
      | next | «break» => exact hflow.elim
      | «return» w => exact .pure hs₁ ⟨hflow, hfr₁⟩

/-- The statements by which a lowered loop leaves, in front of its body. -/
theorem execBlock_leave (m : Engine) (fr : Frame) (d : Expr) (b : List Stmt) :
    execBlock m fr ([.if (negate d) [.break] []] ++ b) = (do
      let w ← eval m fr d
      let v ← unary .not w
      let test ← asBool v
      if test then pure (.break, fr) else execBlock m fr b) := by
  simp only [execBlock_append, execBlock_singleton, exec, negate, eval, bind_assoc]
  refine bind_congr fun w => bind_congr fun v => bind_congr fun test => ?_
  cases test <;> simp only [Bool.false_eq_true, if_false, if_true, execBlock, pure_bind]

/-- **A loop and its lowering.** If the condition hoists anything, the lowered loop runs it in every
round and leaves with a break. -/
theorem BlockLowered.loop {c d : Expr} {b b' : List Stmt}
    (hc : Simulates sigs bound m m' temps [c] h [d]) (hb : BlockLowered sigs bound m m' b b')
    (hrounds : m.rounds = m'.rounds) :
    BlockLowered sigs bound m m' [.while c b] [Lowering.loop h d b'] := by
  refine ⟨fun {p s t fr fr'} hs hfr => ?_⟩
  unfold Lowering.loop
  split
  · -- the condition hoists nothing, and stays where it is
    rename_i hempty
    obtain rfl := List.isEmpty_iff.1 hempty
    simp only [execBlock_singleton, exec, hrounds]
    refine whileLoop_beside (fun {next next'} hnext {p s t fr fr'} hs hfr => ?_) _ hs hfr
    have heq : eval m' fr' d = (do
        let fr ← runHoisted m' fr' []
        let w ← eval m' fr d
        pure (w, fr)) >>= fun r => pure r.1 := by
      simp only [runHoisted_nil, pure_bind, bind_assoc, bind_pure]
    simp only [loopRound, bind_assoc]
    rw [heq, bind_assoc]
    refine Beside.bind (hc.run_one hs hfr) ?_
    rintro q s₁ t₁ v ⟨w, fr₁⟩ hadv hs₁ ⟨-, -, hvw⟩
    simp only [pure_bind]
    refine Beside.bind (asBool_beside hs₁ hvw) ?_
    rintro q₂ s₂ t₂ test _ hadv₂ hs₂ ⟨rfl, -⟩
    have hfr₂ := hfr.advance (hadv.trans hadv₂)
    cases test with
    | false => exact .pure hs₂ ⟨trivial, hfr₂⟩
    | true => exact loopRound_body hnext hb hs₂ hfr₂
  · -- the loop runs forever, and every round starts with the test and may leave there
    simp only [execBlock_singleton, exec, hrounds]
    refine whileLoop_beside (fun {next next'} hnext {p s t fr fr'} hs hfr => ?_) _ hs hfr
    have htrue : (do
        let v ← eval m' fr' (.const (.bool true) ⟨.bool, d.span⟩)
        asBool v) = pure true := rfl
    simp only [loopRound, htrue, pure_bind, if_true, List.append_assoc, bind_assoc]
    refine Beside.execBlock_append ?_
    simp only [execBlock_leave, bind_assoc]
    have heq : ∀ next : Value → Frame → Run (Flow × Frame), (do
        let fr ← runHoisted m' fr' h
        let w ← eval m' fr d
        next w fr) = (do
          let fr ← runHoisted m' fr' h
          let w ← eval m' fr d
          pure (w, fr)) >>= fun r => next r.1 r.2 := by
      intro next
      simp only [bind_assoc, pure_bind]
    rw [heq]
    refine Beside.bind (hc.run_one hs hfr) ?_
    rintro q s₁ t₁ v ⟨w, fr₁⟩ - hs₁ ⟨hfr₁, -, hvw⟩
    cases v with
    | bool test =>
        obtain rfl : w = .bool test := hvw
        cases test with
        | false => exact .pure hs₁ ⟨trivial, hfr₁⟩
        | true => exact loopRound_body hnext hb hs₁ hfr₁
    | _ => exact .clash

end Rivulet.Machine
