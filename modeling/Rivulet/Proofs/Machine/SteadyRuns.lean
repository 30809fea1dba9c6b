import Rivulet.Proofs.Machine.SteadyCells

set_option autoImplicit false

/-! # Runs keep steady cells

Recorded runs are walked through along the code. An activation runs code that stands in its body, so
what it assigns to is assigned in the body, and the body of a closure that it makes stands there too.
An induction on the time then gives the calls. -/

namespace Rivulet.Machine

open Ir

/-! ## Code of a body -/

/-- Everything that stands in a block stands in the body. -/
def Within (body ss : List Stmt) : Prop := ∀ s, Stmt.StandsIn s ss → Stmt.StandsIn s body

/-- The closures among these expressions are made of code that stands in the body. -/
def ClosuresWithin (body : List Stmt) (es : List Expr) : Prop :=
  ∀ ps rs cs b i, .closure ps rs cs b i ∈ es → Within body b

section Code

variable {body ss : List Stmt} {es ds : List Expr}

theorem ClosuresWithin.mono (h : ClosuresWithin body es) (hsub : ds ⊆ es) :
    ClosuresWithin body ds :=
  fun ps rs cs b i hb => h ps rs cs b i (hsub hb)

theorem Within.mono (h : Within body ss) {ts : List Stmt} (hsub : ts ⊆ ss) : Within body ts :=
  fun s hs => h s (hs.mono hsub)

theorem Within.closures (h : Within body ss) : ClosuresWithin body (Stmt.partsList ss) :=
  fun _ _ _ _ _ hb s hs => h s (.closureBody hb hs)

/-- The expressions of a statement. -/
theorem Within.parts {c : Stmt} (h : Within body [c]) (hsub : es ⊆ c.parts) :
    ClosuresWithin body es :=
  h.closures.mono (by simpa [Stmt.partsList] using hsub)

end Code

/-- Calls are steady. -/
def TracedEngine.KeepsSteady (m : TracedEngine) : Prop :=
  ∀ {L : Ledger} {s : Store} {f : Value} {vs : List Value}, s.Heeds L → f.Heeds L →
    Value.HeedList L vs → Steady L (fun L' v => v.Heeds L') (m.call f vs s)

/-- What holds after a piece of code. -/
def FlowHeeds (body : List Stmt) (L : Ledger) (p : Flow × Frame) : Prop :=
  p.2.Heeds body L ∧ ∀ v, p.1 = .return v → v.Heeds L

variable {L : Ledger} {s : Store} {body : List Stmt}

/-! ## Loops -/

theorem whileLoop_steady {cond : Frame → Traced Bool} {block : Frame → Traced (Flow × Frame)}
    (hcond : ∀ {L s fr}, s.Heeds L → fr.Heeds body L → Steady L (fun _ _ => True) (cond fr s))
    (hblock : ∀ {L s fr}, s.Heeds L → fr.Heeds body L → Steady L (FlowHeeds body) (block fr s))
    (k : Nat) {fr : Frame} (hs : s.Heeds L) (hfr : fr.Heeds body L) :
    Steady L (FlowHeeds body) (whileLoopTraced cond block k fr s) := by
  induction k generalizing L s fr with
  | zero => exact .of_exhausted rfl
  | succ k ih =>
      rw [whileLoopTraced]
      refine .bind (hcond hs hfr) fun L₁ b s₁ hle₁ hs₁ _ => ?_
      have hfr₁ := hfr.mono hle₁
      cases b with
      | false => exact .pure hs₁ ⟨hfr₁, by simp⟩
      | true =>
          refine .bind (hblock hs₁ hfr₁) fun L₂ p s₂ _ hs₂ hp => ?_
          obtain ⟨flow, fr₂⟩ := p
          cases flow with
          | next => exact ih hs₂ hp.1
          | «break» => exact .pure hs₂ ⟨hp.1, by simp⟩
          | «return» v => exact .pure hs₂ hp

theorem forLoop_steady {x : LocalId} {block : Frame → Traced (Flow × Frame)}
    (hblock : ∀ {L s fr}, s.Heeds L → fr.Heeds body L → Steady L (FlowHeeds body) (block fr s))
    (k : Nat) {i : Int64} {fr : Frame} (hs : s.Heeds L) (hfr : fr.Heeds body L) :
    Steady L (FlowHeeds body) (forLoopTraced x block k i fr s) := by
  induction k generalizing L s fr i with
  | zero => exact .pure hs ⟨hfr, by simp⟩
  | succ k ih =>
      rw [forLoopTraced]
      refine .bind (Frame.bind_steady hs hfr x trivial) fun L₁ fr₁ s₁ _ hs₁ hfr₁ => ?_
      refine .bind (hblock hs₁ hfr₁) fun L₂ p s₂ _ hs₂ hp => ?_
      obtain ⟨flow, fr₂⟩ := p
      cases flow with
      | next => exact ih hs₂ hp.1
      | «break» => exact .pure hs₂ ⟨hp.1, by simp⟩
      | «return» v => exact .pure hs₂ hp

/-! ## The walk -/

section Walk

variable {m : TracedEngine}

mutual

/-- **Evaluating an expression of a body keeps steady cells.** -/
theorem eval_steady (hm : m.KeepsSteady) : ∀ {e : Expr} {L : Ledger} {s : Store} {fr : Frame},
    ClosuresWithin body e.parts → s.Heeds L → fr.Heeds body L →
      Steady L (fun L' v => v.Heeds L') (evalTraced m fr e s)
  | .const c _, L, s, fr, _, hs, _ => by
      simp only [evalTraced]
      cases c <;> exact .pure hs trivial
  | .local x _, L, s, fr, _, hs, hfr => Frame.readTraced_steady hs hfr x
  | .function _ _, L, s, fr, _, hs, _ => .pure hs trivial
  | .builtin _ _, L, s, fr, _, hs, _ => .pure hs trivial
  | .unary op e _, L, s, fr, h, hs, hfr => by
      have he : ClosuresWithin body e.parts := h.mono (by simp [Expr.parts])
      simp only [evalTraced]
      exact .bind (eval_steady hm he hs hfr) fun L₁ v s₁ _ hs₁ _ => unary_steady hs₁ op v
  | .binary op l r _ _ i, L, s, fr, h, hs, hfr => by
      have hinl : ClosuresWithin body l.parts := h.mono (by simp [Expr.parts])
      have hinr : ClosuresWithin body r.parts := h.mono (by simp [Expr.parts])
      by_cases hmap : op = .map
      · simp only [evalTraced, if_pos hmap]
        exact .of_fault rfl
      by_cases hlogic : op = .and ∨ op = .or
      · rw [evalTraced_logical m hlogic]
        refine .bind (eval_steady hm hinl hs hfr) fun L₁ v s₁ hle₁ hs₁ _ => ?_
        refine .bind (asBool_steady hs₁ v) fun L₂ b s₂ hle₂ hs₂ _ => ?_
        cases needsRight op b with
        | false => exact .pure hs₂ trivial
        | true =>
            refine .bind (eval_steady hm hinr hs₂ (hfr.mono (hle₁.trans hle₂))) ?_
            intro L₃ w s₃ _ hs₃ _
            exact .bind (asBool_steady hs₃ w) fun L₄ c s₄ _ hs₄ _ => .pure hs₄ trivial
      · rw [evalTraced_operator m hmap hlogic]
        refine .bind (eval_steady hm hinl hs hfr) fun L₁ v s₁ hle₁ hs₁ _ => ?_
        refine .bind (eval_steady hm hinr hs₁ (hfr.mono hle₁)) fun L₂ w s₂ _ hs₂ _ => ?_
        exact binary_steady hs₂ op v w
  | .call f as _, L, s, fr, h, hs, hfr => by
      simp only [evalTraced]
      refine .bind (eval_steady hm (h.mono (by simp [Expr.parts])) hs hfr)
        fun L₁ v s₁ hle₁ hs₁ hv => ?_
      refine .bind (evalList_steady hm (h.mono (by simp [Expr.parts])) hs₁ (hfr.mono hle₁)) ?_
      intro L₂ vs s₂ hle₂ hs₂ hvs
      exact hm hs₂ (hv.mono hle₂) hvs
  | .index e p b _, L, s, fr, h, hs, hfr => by
      simp only [evalTraced]
      refine .bind (eval_steady hm (h.mono (by simp [Expr.parts])) hs hfr)
        fun L₁ v s₁ hle₁ hs₁ _ => ?_
      refine .bind (eval_steady hm (h.mono (by simp [Expr.parts])) hs₁ (hfr.mono hle₁)) ?_
      intro L₂ w s₂ _ hs₂ _
      refine .bind (asInt_steady hs₂ w) fun L₃ k s₃ _ hs₃ _ => ?_
      refine .bind (asSlice_steady hs₃ v) fun L₄ a s₄ _ hs₄ _ => ?_
      refine .bind (sliceLength_steady hs₄ a) fun L₅ n s₅ _ hs₅ _ => ?_
      refine .bind (position_steady hs₅ k n b) fun L₆ j s₆ _ hs₆ _ => ?_
      exact readItem_steady hs₆ a j
  | .len e _, L, s, fr, h, hs, hfr => by
      have he : ClosuresWithin body e.parts := h.mono (by simp [Expr.parts])
      simp only [evalTraced]
      exact .bind (eval_steady hm he hs hfr) fun L₁ v s₁ _ hs₁ _ => builtin_steady hs₁ .len [v]
  | .alloc t e o _, L, s, fr, h, hs, hfr => by
      have he : ClosuresWithin body e.parts := h.mono (by simp [Expr.parts])
      simp only [evalTraced]
      refine .bind (eval_steady hm he hs hfr) fun L₁ v s₁ _ hs₁ _ => ?_
      exact .bind (asInt_steady hs₁ v) fun L₂ n s₂ _ hs₂ _ => allocate_steady hs₂ t n _
  | .slice es o _, L, s, fr, h, hs, hfr => by
      have hes : ClosuresWithin body (Expr.partsList es) := h.mono (by simp [Expr.parts])
      simp only [evalTraced]
      refine .bind (evalList_steady hm hes hs hfr) fun L₁ vs s₁ _ hs₁ hvs => ?_
      exact newSlice_steady hs₁ _ fun v hv => (Value.heedList_iff vs).1 hvs v (by simpa using hv)
  | .closure ps rs cs b i, L, s, fr, h, hs, hfr => by
      simp only [evalTraced]
      refine .bind (captureCells_steady hs hfr cs) fun L₁ env s₁ _ hs₁ henv => ?_
      refine .bind (newClosure_steady hs₁) fun L₂ k s₂ hle₂ hs₂ _ => ?_
      -- what the body of the closure assigns to, the body around it assigns to as well
      refine .pure hs₂ fun p hp => ?_
      obtain ⟨o, ho, hspares⟩ := (henv p hp).mono hle₂
      refine ⟨o, ho, fun hsteady hassigns => hspares hsteady ?_⟩
      obtain ⟨e, he⟩ := hassigns
      exact ⟨e, h ps rs cs b i List.mem_cons_self _ he⟩

theorem evalList_steady (hm : m.KeepsSteady) :
    ∀ {es : List Expr} {L : Ledger} {s : Store} {fr : Frame},
    ClosuresWithin body (Expr.partsList es) → s.Heeds L → fr.Heeds body L →
      Steady L (fun L' vs => Value.HeedList L' vs) (evalListTraced m fr es s)
  | [], L, s, fr, _, hs, _ => .pure hs trivial
  | e :: es, L, s, fr, h, hs, hfr => by
      simp only [evalListTraced]
      refine .bind (eval_steady hm (h.mono (by simp [Expr.partsList])) hs hfr) ?_
      intro L₁ v s₁ hle₁ hs₁ hv
      refine .bind (evalList_steady hm (h.mono (by simp [Expr.partsList])) hs₁ (hfr.mono hle₁)) ?_
      intro L₂ vs s₂ hle₂ hs₂ hvs
      exact .pure hs₂ ⟨hv.mono hle₂, hvs⟩

end

mutual

/-- **Executing a statement of a body keeps steady cells.** -/
theorem exec_steady (hm : m.KeepsSteady) :
    ∀ {c : Stmt} {L : Ledger} {s : Store} {fr : Frame}, Within body [c] →
    s.Heeds L → fr.Heeds body L → Steady L (FlowHeeds body) (execTraced m body fr c s)
  | .bind x e, L, s, fr, h, hs, hfr => by
      simp only [execTraced]
      refine .bind (eval_steady hm (h.parts (by simp [Stmt.parts])) hs hfr) ?_
      intro L₁ v s₁ hle₁ hs₁ hv
      refine .bind (Frame.bindTraced_steady hs₁ (hfr.mono hle₁) x hv) fun L₂ fr₂ s₂ _ hs₂ hfr₂ => ?_
      exact .pure hs₂ ⟨hfr₂, by simp⟩
  | .assign x e, L, s, fr, h, hs, hfr => by
      simp only [execTraced]
      refine .bind (eval_steady hm (h.parts (by simp [Stmt.parts])) hs hfr) ?_
      intro L₁ v s₁ hle₁ hs₁ hv
      have hfr₁ := hfr.mono hle₁
      -- the local is assigned to, so its cells are not among the steady ones
      have hx : Stmt.Assigns body x := ⟨e, h _ (.here List.mem_cons_self)⟩
      refine .bind (Frame.write_steady hs₁ hfr₁ hx hv) fun L₂ _ s₂ hle₂ hs₂ _ => ?_
      exact .pure hs₂ ⟨hfr₁.mono hle₂, by simp⟩
  | .store e p v b, L, s, fr, h, hs, hfr => by
      simp only [execTraced]
      refine .bind (eval_steady hm (h.parts (by simp [Stmt.parts])) hs hfr) ?_
      intro L₁ x s₁ hle₁ hs₁ _
      have hfr₁ := hfr.mono hle₁
      refine .bind (eval_steady hm (h.parts (by simp [Stmt.parts])) hs₁ hfr₁) ?_
      intro L₂ y s₂ hle₂ hs₂ _
      have hfr₂ := hfr₁.mono hle₂
      refine .bind (eval_steady hm (h.parts (by simp [Stmt.parts])) hs₂ hfr₂) ?_
      intro L₃ z s₃ hle₃ hs₃ hz
      refine .bind (asSlice_steady hs₃ x) fun L₄ a s₄ hle₄ hs₄ _ => ?_
      refine .bind (asInt_steady hs₄ y) fun L₅ i s₅ hle₅ hs₅ _ => ?_
      refine .bind (sliceLength_steady hs₅ a) fun L₆ n s₆ hle₆ hs₆ _ => ?_
      refine .bind (position_steady hs₆ i n b) fun L₇ k s₇ hle₇ hs₇ _ => ?_
      have hle := ((hle₄.trans hle₅).trans hle₆).trans hle₇
      refine .bind (writeItem_steady hs₇ a k (hz.mono hle)) fun L₈ _ s₈ hle₈ hs₈ _ => ?_
      exact .pure hs₈ ⟨((hfr₂.mono hle₃).mono hle).mono hle₈, by simp⟩
  | .expr e, L, s, fr, h, hs, hfr => by
      simp only [execTraced]
      refine .bind (eval_steady hm (h.parts (by simp [Stmt.parts])) hs hfr) ?_
      intro L₁ v s₁ hle₁ hs₁ _
      exact .pure hs₁ ⟨hfr.mono hle₁, by simp⟩
  | .return es, L, s, fr, h, hs, hfr => by
      simp only [execTraced]
      refine .bind (evalList_steady hm (h.parts (by simp [Stmt.parts])) hs hfr) ?_
      intro L₁ vs s₁ hle₁ hs₁ hvs
      refine .pure hs₁ ⟨hfr.mono hle₁, fun v hv => ?_⟩
      cases hv
      exact Value.heeds_returned hvs
  | .if c t e, L, s, fr, h, hs, hfr => by
      simp only [execTraced]
      refine .bind (eval_steady hm (h.parts (by simp [Stmt.parts])) hs hfr) ?_
      intro L₁ v s₁ hle₁ hs₁ _
      refine .bind (asBool_steady hs₁ v) fun L₂ b s₂ hle₂ hs₂ _ => ?_
      have hfr₂ := hfr.mono (hle₁.trans hle₂)
      cases b with
      | true =>
          exact execBlock_steady hm (fun c hc => h c (.thenBlock List.mem_cons_self hc)) hs₂ hfr₂
      | false =>
          exact execBlock_steady hm (fun c hc => h c (.elseBlock List.mem_cons_self hc)) hs₂ hfr₂
  | .while c b, L, s, fr, h, hs, hfr => by
      simp only [execTraced]
      refine whileLoop_steady (fun {L₁ s₁ fr₁} hs₁ hfr₁ => ?_) (fun {L₁ s₁ fr₁} hs₁ hfr₁ => ?_) _
        hs hfr
      · refine .bind (eval_steady hm (h.parts (by simp [Stmt.parts])) hs₁ hfr₁) ?_
        intro L₂ v s₂ _ hs₂ _
        exact asBool_steady hs₂ v
      · exact execBlock_steady hm (fun c hc => h c (.whileBody List.mem_cons_self hc)) hs₁ hfr₁
  | .break, L, s, fr, _, hs, hfr => .pure hs ⟨hfr, by simp⟩
  | .for x a z b, L, s, fr, h, hs, hfr => by
      simp only [execTraced]
      refine .bind (eval_steady hm (h.parts (by simp [Stmt.parts])) hs hfr) ?_
      intro L₁ v s₁ hle₁ hs₁ _
      refine .bind (asInt_steady hs₁ v) fun L₂ first s₂ hle₂ hs₂ _ => ?_
      have hfr₂ := hfr.mono (hle₁.trans hle₂)
      refine .bind (eval_steady hm (h.parts (by simp [Stmt.parts])) hs₂ hfr₂) ?_
      intro L₃ w s₃ hle₃ hs₃ _
      refine .bind (asInt_steady hs₃ w) fun L₄ last s₄ hle₄ hs₄ _ => ?_
      refine forLoop_steady (fun {L₅ s₅ fr₅} hs₅ hfr₅ => ?_) _ hs₄ (hfr₂.mono (hle₃.trans hle₄))
      exact execBlock_steady hm (fun c hc => h c (.forBody List.mem_cons_self hc)) hs₅ hfr₅

theorem execBlock_steady (hm : m.KeepsSteady) :
    ∀ {ss : List Stmt} {L : Ledger} {s : Store} {fr : Frame},
    Within body ss → s.Heeds L → fr.Heeds body L →
      Steady L (FlowHeeds body) (execBlockTraced m body fr ss s)
  | [], L, s, fr, _, hs, hfr => .pure hs ⟨hfr, by simp⟩
  | c :: ss, L, s, fr, h, hs, hfr => by
      simp only [execBlockTraced]
      refine .bind (exec_steady hm (h.mono (by simp)) hs hfr) fun L₁ p s₁ _ hs₁ hp => ?_
      obtain ⟨flow, fr₁⟩ := p
      cases flow with
      | next => exact execBlock_steady hm (h.mono (List.subset_cons_self c ss)) hs₁ hp.1
      | «break» => exact .pure hs₁ ⟨hp.1, by simp⟩
      | «return» v => exact .pure hs₁ hp

end

variable (hm : m.KeepsSteady)

include hm

/-- Running a body in a new activation. -/
theorem activate_steady {cells : List (LocalId × CellAddr)} (ps : List LocalId) {vs : List Value}
    (hs : s.Heeds L) (hcells : ∀ x c, cells.lookup x = some c → L.Spares body x c)
    (hvs : Value.HeedList L vs) :
    Steady L (fun L' v => v.Heeds L') (activateTraced m cells ps body vs s) := by
  unfold activateTraced
  refine .bind (newActivation_steady hs) fun L₁ n s₁ hle₁ hs₁ _ => ?_
  have hfr₁ : (Frame.mk n cells).Heeds body L₁ := fun x c hx => (hcells x c hx).mono hle₁
  refine .bind (Frame.bindParams_steady hs₁ hfr₁ ps (hvs.mono hle₁)) fun L₂ fr₂ s₂ _ hs₂ hfr₂ => ?_
  refine .bind (execBlock_steady hm (fun _ => id) hs₂ hfr₂) fun L₃ p s₃ _ hs₃ hp => ?_
  obtain ⟨flow, fr₃⟩ := p
  refine .pure hs₃ ?_
  cases flow with
  | next | «break» => trivial
  | «return» v => exact hp.2 v rfl

theorem Code.callOn_steady (code : Code) (name : String) {vs : List Value} (hs : s.Heeds L)
    (hvs : Value.HeedList L vs) :
    Steady L (fun L' v => v.Heeds L') (code.callOnTraced m name vs s) := by
  unfold Code.callOnTraced
  cases code.functions.lookup name with
  | none => exact .of_fault rfl
  | some f => exact activate_steady hm f.params hs (by simp) hvs

end Walk

/-! ## Calls -/

/-- **Calls keep steady cells**, however much time they have. -/
theorem Code.callValue_steady (code : Code) (time : Nat) :
    TracedEngine.KeepsSteady ⟨code.callValueTraced time, time⟩ := by
  induction time with
  | zero => exact fun _ _ _ => .of_exhausted rfl
  | succ time ih =>
      intro L s f vs hs hf hvs
      change Steady L _ (code.callValueTraced (time + 1) f vs s)
      rw [Code.callValueTraced]
      refine .bind (asCallable_steady hs hf) fun L₁ c s₁ hle₁ hs₁ hc => ?_
      have hvs₁ := hvs.mono hle₁
      have hengine : TracedEngine.KeepsSteady ⟨code.callValueTraced time, time⟩ := ih
      cases c with
      | function name => exact Code.callOn_steady hengine code name hs₁ hvs₁
      | builtin b => exact builtin_steady hs₁ b vs
      | closure i ps b env =>
          exact activate_steady hengine ps hs₁
            (fun x c hx => hc (x, c) (mem_of_lookup_closureCells hx)) hvs₁

/-- **What is read is what was bound.** In the record of a call, take a cell that was bound to a local
in an activation of some body. If no assignment to this local stands in that body, everything that is
read from the cell is the value that it was bound to. -/
theorem Session.read_eq_bound (time : Nat) (s : Session) (name : String) (args : List Datum)
    {body : List Stmt} {x y : LocalId} {c : CellAddr} {v w : Value}
    (hbound : .bound body x c v ∈ (s.callTraced time name args).1)
    (hread : .read y c w ∈ (s.callTraced time name args).1) (hx : ¬ Stmt.Assigns body x) :
    w = v := by
  have hempty : Store.Heeds { output := s.output } (fun _ => none) :=
    ⟨by simp, by simp, by simp⟩
  obtain ⟨L, -, hfits, -⟩ : Steady (fun _ => none) (fun L' v => v.Heeds L')
      (s.callTraced time name args) :=
    .bind (Datum.loadList_steady args hempty) fun L₁ vs s₁ _ hs₁ hvs =>
      Code.callOn_steady (Code.callValue_steady s.code time) s.code name hs₁ hvs
  have hsteady : L c.index = some (some v) := hfits _ hbound hx
  obtain ⟨o, ho, hw⟩ := hfits _ hread
  rw [hsteady] at ho
  cases ho
  exact hw v rfl

end Rivulet.Machine
