import Rivulet.Proofs.Placement.KeepingSecrets

set_option autoImplicit false

/-! # Placement is safe

What a function places in its frame never survives the activation that made it. Every activation is
its own observer. While it runs, its code is confined, so its secrets stay in its private cells; the
calls it makes run other activations, which see open values only and can do what they like with them.
When it returns, the value and everything that was there before are open, and no secret is in reach.

The proof is one walk over the code, for code of the observed activation and of others at once: only
for the former it has to be confined. An induction on the time then builds the engines. -/

namespace Rivulet.Machine

open Ir

variable {O : Observer} {W : World} {s : Store} {m m' : Engine}

/-! ## Loops -/

/-- What holds after a piece of code: the frame is that of the same activation and its cells are
private as they should be, and what is returned is open. -/
def FlowKeeps (O : Observer) (n : Nat) (W : World) (p : Flow × Frame) : Prop :=
  p.2.Respects O W ∧ p.2.activation = n ∧ ∀ v, p.1 = .return v → v.Open W

theorem whileLoop_keeps {n : Nat} {cond cond' : Frame → Run Bool}
    {body body' : Frame → Run (Flow × Frame)}
    (hcond : ∀ {W s fr}, s.Respects O W → fr.Respects O W → fr.activation = n →
      Keeps O W (fun _ _ => True) (cond fr s) (cond' fr s))
    (hbody : ∀ {W s fr}, s.Respects O W → fr.Respects O W → fr.activation = n →
      Keeps O W (FlowKeeps O n) (body fr s) (body' fr s)) :
    ∀ {k : Nat} {W : World} {s : Store} {fr : Frame}, s.Respects O W → fr.Respects O W →
      fr.activation = n →
      Keeps O W (FlowKeeps O n) (whileLoop cond body k fr s) (whileLoop cond' body' k fr s)
  | 0, _, _, _, _, _, _ => .exhausted
  | k + 1, W, s, fr, hs, hfr, hn => by
      simp only [whileLoop]
      refine Keeps.bind (hcond hs hfr hn) fun W₁ b s₁ hle₁ hs₁ _ => ?_
      have hfr₁ := hfr.mono hle₁
      cases b with
      | false => exact .pure hs₁ ⟨hfr₁, hn, by simp⟩
      | true =>
          refine Keeps.bind (hbody hs₁ hfr₁ hn) fun W₂ p s₂ _ hs₂ hp => ?_
          obtain ⟨flow, fr₂⟩ := p
          cases flow with
          | next => exact whileLoop_keeps hcond hbody hs₂ hp.1 hp.2.1
          | «break» => exact .pure hs₂ ⟨hp.1, hp.2.1, by simp⟩
          | «return» v => exact .pure hs₂ hp

theorem forLoop_keeps {n : Nat} {x : LocalId} {body body' : Frame → Run (Flow × Frame)}
    (hbody : ∀ {W s fr}, s.Respects O W → fr.Respects O W → fr.activation = n →
      Keeps O W (FlowKeeps O n) (body fr s) (body' fr s)) :
    ∀ {k : Nat} {i : Int64} {W : World} {s : Store} {fr : Frame}, s.Respects O W →
      fr.Respects O W → fr.activation = n →
      Keeps O W (FlowKeeps O n) (forLoop x body k i fr s) (forLoop x body' k i fr s)
  | 0, _, _, _, _, hs, hfr, hn => .pure hs ⟨hfr, hn, by simp⟩
  | k + 1, i, W, s, fr, hs, hfr, hn => by
      simp only [forLoop]
      refine Keeps.bind (Frame.bind_keeps hs hfr (.inl trivial)) fun W₁ fr₁ s₁ _ hs₁ hfr₁ => ?_
      refine Keeps.bind (hbody hs₁ hfr₁.1 (hfr₁.2.trans hn)) fun W₂ p s₂ _ hs₂ hp => ?_
      obtain ⟨flow, fr₂⟩ := p
      cases flow with
      | next => exact forLoop_keeps hbody hs₂ hp.1 hp.2.1
      | «break» => exact .pure hs₂ ⟨hp.1, hp.2.1, by simp⟩
      | «return» v => exact .pure hs₂ hp

/-! ## The walk -/

/-- An expression that the observed activation may let out, or any expression of another one. -/
theorem Store.Respects.open_of_releases (hs : s.Respects O W) {n : Nat} {e : Expr} {v : Value}
    (hv : v.Seen W (O.exprSites n e)) (he : some n = O.activation → O.toConfinement.Releases e) :
    v.Open W := by
  refine hs.open_of_released hv fun σ hσ => ?_
  unfold Observer.exprSites at hσ
  split at hσ
  · rename_i hn
    exact he hn σ hσ
  · cases hσ

/-- An expression whose value may be bound to a local: its cell may hold it. -/
theorem Store.Respects.seen_of_binds (hs : s.Respects O W) {n : Nat} {x : LocalId} {e : Expr}
    {v : Value} (hv : v.Seen W (O.exprSites n e))
    (he : some n = O.activation → O.toConfinement.Binds x e) :
    v.Seen W (O.cellSites (O.owner? n x)) := by
  by_cases hn : some n = O.activation
  · by_cases hx : x ∈ O.held
    · exact .inl (hs.open_of_releases hv fun _ => (he hn).2 hx)
    · rw [Observer.owner?, if_pos ⟨hn, hx⟩]
      refine hv.weaken fun σ hσ => ?_
      rw [Observer.exprSites, if_pos hn] at hσ
      exact (he hn).1 σ hσ
  · exact .inl (hs.open_of_releases hv fun h => absurd h hn)

/-- The values of expressions, each seen as its expression may be. -/
def SeenList (O : Observer) (n : Nat) (W : World) (es : List Expr) (vs : List Value) : Prop :=
  List.Forall₂ (fun e v => v.Seen W (O.exprSites n e)) es vs

theorem SeenList.open_of_releases {n : Nat} {es : List Expr} {vs : List Value}
    (h : SeenList O n W es vs) (hs : s.Respects O W)
    (hes : some n = O.activation → ∀ e ∈ es, O.toConfinement.Releases e) : Value.OpenList W vs := by
  induction h with
  | nil => trivial
  | cons hv _ ih =>
      exact ⟨hs.open_of_releases hv fun hn => hes hn _ (by simp),
        ih fun hn e he => hes hn e (by simp [he])⟩

/-- A map that is executed directly: the elements are open, and so is what the calls give. -/
theorem directMap_keeps (hm : m.Keeps m') (hs : s.Respects O W) {v f : Value}
    {sites : List Site} (hf : f.Seen W sites) :
    Keeps O W (fun W' w => w.Open W')
      ((do
        let a ← asSlice v
        let n ← Run.sliceLength a
        let vs ← mapItems m.call f a n 0 #[]
        Run.newSlice vs none) s)
      ((do
        let a ← asSlice v
        let n ← Run.sliceLength a
        let vs ← mapItems m'.call f a n 0 #[]
        Run.newSlice vs none) s) := by
  refine Keeps.bind (asSlice_keeps hs v) fun W₁ a s₁ hle₁ hs₁ _ => ?_
  refine Keeps.bind (sliceLength_keeps hs₁ a) fun W₂ k s₂ hle₂ hs₂ _ => ?_
  have hf₂ := (hf.mono (hle₁.trans hle₂)).callee
  refine Keeps.bind (mapItems_keeps hm a hs₂ hf₂ (by simp)) fun W₃ vs s₃ _ hs₃ hvs => ?_
  exact newSlice_none_keeps hs₃ hvs

mutual

/-- **Evaluating an expression keeps secrets**, if it is confined or of another activation. -/
theorem eval_keeps (hm : m.Keeps m') : ∀ {e : Expr} {W : World} {s : Store} {fr : Frame},
    (some fr.activation = O.activation → e.Confined O.toConfinement) → s.Respects O W →
      fr.Respects O W →
      Keeps O W (fun W' v => v.Seen W' (O.exprSites fr.activation e)) (eval m fr e s) (eval m' fr e s)
  | .const c i, W, s, fr, _, hs, _ => by
      simp only [eval]
      cases c <;> exact .pure hs (.inl trivial)
  | .local x i, W, s, fr, _, hs, hfr => by
      simp only [eval]
      exact Frame.read_keeps hs hfr x i
  | .function f i, W, s, fr, _, hs, _ => .pure hs (.inl trivial)
  | .builtin b i, W, s, fr, _, hs, _ => .pure hs (.inl trivial)
  | .unary op e i, W, s, fr, h, hs, hfr => by
      simp only [eval]
      refine Keeps.bind (eval_keeps hm (e := e) h hs hfr) fun W₁ v s₁ _ hs₁ _ => ?_
      exact (unary_keeps hs₁ op v).weaken fun _ _ _ hw => .inl hw
  | .binary op l r common facts i, W, s, fr, h, hs, hfr => by
      have hl :=
        fun {W s} hs hfr => eval_keeps hm (e := l) (W := W) (s := s) (fun hn => (h hn).1) hs hfr
      have hr :=
        fun {W s} hs hfr => eval_keeps hm (e := r) (W := W) (s := s) (fun hn => (h hn).2) hs hfr
      by_cases hmap : op = .map
      · simp only [eval, if_pos hmap, hm.maps]
        cases m'.maps with
        | refuse => exact .fault _ _
        | direct =>
            refine Keeps.bind (hl hs hfr) fun W₁ v s₁ hle₁ hs₁ _ => ?_
            refine Keeps.bind (hr hs₁ (hfr.mono hle₁)) fun W₂ f s₂ _ hs₂ hf => ?_
            exact (directMap_keeps hm hs₂ hf).weaken fun _ _ _ hw => .inl hw
      by_cases hlogic : op = .and ∨ op = .or
      · simp only [eval_logical hlogic]
        refine Keeps.bind (hl hs hfr) fun W₁ v s₁ hle₁ hs₁ _ => ?_
        refine Keeps.bind (asBool_keeps hs₁ v) fun W₂ b s₂ hle₂ hs₂ _ => ?_
        cases needsRight op b with
        | false => exact .pure hs₂ (.inl trivial)
        | true =>
            refine Keeps.bind (hr hs₂ (hfr.mono (hle₁.trans hle₂))) fun W₃ w s₃ _ hs₃ _ => ?_
            refine Keeps.bind (asBool_keeps hs₃ w) fun W₄ c s₄ _ hs₄ _ => ?_
            exact .pure hs₄ (.inl trivial)
      · simp only [eval_operator hmap hlogic]
        refine Keeps.bind (hl hs hfr) fun W₁ v s₁ hle₁ hs₁ _ => ?_
        refine Keeps.bind (hr hs₁ (hfr.mono hle₁)) fun W₂ w s₂ _ hs₂ _ => ?_
        exact (binary_keeps hs₂ op v w).weaken fun _ _ _ hx => .inl hx
  | .call f as i, W, s, fr, h, hs, hfr => by
      simp only [eval]
      by_cases hprint : ∃ j, f = .builtin .println j
      · -- `println` holds nothing, so its argument may be a secret
        obtain ⟨j, rfl⟩ := hprint
        simp only [eval, pure_bind]
        refine Keeps.bind (evalList_keeps hm (fun hn => (h hn).2.1) hs hfr)
          fun W₁ vs s₁ _ hs₁ _ => ?_
        exact (hm.print hs₁).weaken fun _ _ _ hv => .inl hv
      · refine Keeps.bind (eval_keeps hm (fun hn => (h hn).1) hs hfr) fun W₁ v s₁ hle₁ hs₁ hv => ?_
        refine Keeps.bind (evalList_keeps hm (fun hn => (h hn).2.1) hs₁ (hfr.mono hle₁)) ?_
        intro W₂ vs s₂ hle₂ hs₂ hvs
        have hopen : Value.OpenList W₂ vs := hvs.open_of_releases hs₂ fun hn =>
          (h hn).2.2.resolve_left hprint
        exact (hm.call hs₂ (hv.mono hle₂).callee hopen).weaken fun _ _ _ hw => .inl hw
  | .index e p b i, W, s, fr, h, hs, hfr => by
      simp only [eval]
      refine Keeps.bind (eval_keeps hm (fun hn => (h hn).1) hs hfr) fun W₁ v s₁ hle₁ hs₁ _ => ?_
      refine Keeps.bind (eval_keeps hm (fun hn => (h hn).2) hs₁ (hfr.mono hle₁))
        fun W₂ w s₂ _ hs₂ _ => ?_
      refine Keeps.bind (asInt_keeps hs₂ w) fun W₃ k s₃ _ hs₃ _ => ?_
      refine Keeps.bind (asSlice_keeps hs₃ v) fun W₄ a s₄ _ hs₄ _ => ?_
      refine Keeps.bind (sliceLength_keeps hs₄ a) fun W₅ n s₅ _ hs₅ _ => ?_
      refine Keeps.bind (position_keeps hs₅ k n b) fun W₆ j s₆ _ hs₆ _ => ?_
      exact (readItem_keeps hs₆ a j).weaken fun _ _ _ hx => .inl hx
  | .len e i, W, s, fr, h, hs, hfr => by
      simp only [eval]
      refine Keeps.bind (eval_keeps hm (e := e) h hs hfr) fun W₁ v s₁ _ hs₁ _ => ?_
      exact (builtin_keeps hs₁ .len [v]).weaken fun _ _ _ hw => .inl hw
  | .alloc t e o i, W, s, fr, h, hs, hfr => by
      simp only [eval]
      refine Keeps.bind (eval_keeps hm (e := e) h hs hfr) fun W₁ v s₁ hle₁ hs₁ _ => ?_
      refine Keeps.bind (asInt_keeps hs₁ v) fun W₂ n s₂ hle₂ hs₂ _ => ?_
      refine (allocate_keeps hs₂ t n (hfr.mono (hle₁.trans hle₂)).begun).weaken fun _ _ _ hw => ?_
      exact hw.weaken fun σ hσ => O.mem_exprSites_of_secret rfl hσ
  | .slice es o i, W, s, fr, h, hs, hfr => by
      simp only [eval]
      refine Keeps.bind (evalList_keeps hm (fun hn => (h hn).1) hs hfr)
        fun W₁ vs s₁ hle₁ hs₁ hvs => ?_
      have hopen : Value.OpenList W₁ vs := hvs.open_of_releases hs₁ fun hn => (h hn).2
      refine (newSlice_keeps hs₁ (fun v hv => ?_) (fun p hp => ?_)).weaken fun _ _ _ hw => ?_
      · exact (Value.openList_iff vs).1 hopen v (by simpa using hv)
      · cases hp
        exact (hfr.mono hle₁).begun
      · exact hw.weaken fun σ hσ => O.mem_exprSites_of_secret rfl hσ
  | .closure ps rs cs b i, W, s, fr, h, hs, hfr => by
      simp only [eval]
      -- a confined closure captures no local that holds a secret, and it may leave the activation
      have hheld : ∀ x ∈ cs, O.owner? fr.activation x = none := by
        intro x hx
        rw [Observer.owner?, if_neg]
        rintro ⟨hn, hnot⟩
        exact hnot ((h hn).1 x hx)
      refine Keeps.bind (captureCells_keeps hs hfr hheld) fun W₁ env s₁ _ hs₁ henv => ?_
      exact .ok (hs₁.congr rfl rfl rfl) (.inl henv)

theorem evalList_keeps (hm : m.Keeps m') : ∀ {es : List Expr} {W : World} {s : Store} {fr : Frame},
    (some fr.activation = O.activation → Expr.ConfinedList O.toConfinement es) → s.Respects O W →
      fr.Respects O W →
      Keeps O W (fun W' vs => SeenList O fr.activation W' es vs) (evalList m fr es s)
        (evalList m' fr es s)
  | [], W, s, fr, _, hs, _ => .pure hs .nil
  | e :: es, W, s, fr, h, hs, hfr => by
      simp only [evalList]
      refine Keeps.bind (eval_keeps hm (fun hn => (h hn).1) hs hfr) fun W₁ v s₁ hle₁ hs₁ hv => ?_
      refine Keeps.bind (evalList_keeps hm (fun hn => (h hn).2) hs₁ (hfr.mono hle₁)) ?_
      intro W₂ vs s₂ hle₂ hs₂ hvs
      exact .pure hs₂ (.cons (hv.mono hle₂) hvs)

end

mutual

/-- **Executing a statement keeps secrets**, if it is confined or of another activation. -/
theorem exec_keeps (hm : m.Keeps m') : ∀ {c : Stmt} {W : World} {s : Store} {fr : Frame},
    (some fr.activation = O.activation → c.Confined O.toConfinement) → s.Respects O W →
      fr.Respects O W →
      Keeps O W (FlowKeeps O fr.activation) (exec m fr c s) (exec m' fr c s)
  | .bind x e, W, s, fr, h, hs, hfr => by
      simp only [exec]
      refine Keeps.bind (eval_keeps hm (fun hn => (h hn).1) hs hfr) fun W₁ v s₁ hle₁ hs₁ hv => ?_
      have hseen := hs₁.seen_of_binds hv fun hn => (h hn).2
      refine Keeps.bind (Frame.bind_keeps hs₁ (hfr.mono hle₁) hseen) fun W₂ fr₂ s₂ _ hs₂ hfr₂ => ?_
      exact .pure hs₂ ⟨hfr₂.1, hfr₂.2, by simp⟩
  | .assign x e, W, s, fr, h, hs, hfr => by
      simp only [exec]
      refine Keeps.bind (eval_keeps hm (fun hn => (h hn).1) hs hfr) fun W₁ v s₁ hle₁ hs₁ hv => ?_
      have hseen := hs₁.seen_of_binds hv fun hn => (h hn).2
      have hfr₁ := hfr.mono hle₁
      refine Keeps.bind (Frame.write_keeps hs₁ hfr₁ hseen) fun W₂ _ s₂ hle₂ hs₂ _ => ?_
      exact .pure hs₂ ⟨hfr₁.mono hle₂, rfl, by simp⟩
  | .store e p v b, W, s, fr, h, hs, hfr => by
      simp only [exec]
      refine Keeps.bind (eval_keeps hm (fun hn => (h hn).1) hs hfr) fun W₁ x s₁ hle₁ hs₁ _ => ?_
      have hfr₁ := hfr.mono hle₁
      refine Keeps.bind (eval_keeps hm (fun hn => (h hn).2.1) hs₁ hfr₁) fun W₂ y s₂ hle₂ hs₂ _ => ?_
      have hfr₂ := hfr₁.mono hle₂
      refine Keeps.bind (eval_keeps hm (fun hn => (h hn).2.2.1) hs₂ hfr₂) ?_
      intro W₃ z s₃ hle₃ hs₃ hz
      -- nobody knows who reads the sequence later, so what is stored must not be a secret
      have hopen : z.Open W₃ := hs₃.open_of_releases hz fun hn => (h hn).2.2.2
      refine Keeps.bind (asSlice_keeps hs₃ x) fun W₄ a s₄ hle₄ hs₄ _ => ?_
      refine Keeps.bind (asInt_keeps hs₄ y) fun W₅ i s₅ hle₅ hs₅ _ => ?_
      refine Keeps.bind (sliceLength_keeps hs₅ a) fun W₆ n s₆ hle₆ hs₆ _ => ?_
      refine Keeps.bind (position_keeps hs₆ i n b) fun W₇ k s₇ hle₇ hs₇ _ => ?_
      have hle := ((hle₄.trans hle₅).trans hle₆).trans hle₇
      exact .ok (hs₇.writeItem (hopen.mono hle)) ⟨(hfr₂.mono hle₃).mono hle, rfl, by simp⟩
  | .expr e, W, s, fr, h, hs, hfr => by
      simp only [exec]
      refine Keeps.bind (eval_keeps hm (e := e) h hs hfr) fun W₁ v s₁ hle₁ hs₁ _ => ?_
      exact .pure hs₁ ⟨hfr.mono hle₁, rfl, by simp⟩
  | .return es, W, s, fr, h, hs, hfr => by
      simp only [exec]
      refine Keeps.bind (evalList_keeps hm (fun hn => (h hn).1) hs hfr) ?_
      intro W₁ vs s₁ hle₁ hs₁ hvs
      have hopen : Value.OpenList W₁ vs := hvs.open_of_releases hs₁ fun hn => (h hn).2
      refine .pure hs₁ ⟨hfr.mono hle₁, rfl, fun v hv => ?_⟩
      cases hv
      exact Value.open_returned hopen
  | .if c t e, W, s, fr, h, hs, hfr => by
      simp only [exec]
      refine Keeps.bind (eval_keeps hm (fun hn => (h hn).1) hs hfr) fun W₁ v s₁ hle₁ hs₁ _ => ?_
      refine Keeps.bind (asBool_keeps hs₁ v) fun W₂ b s₂ hle₂ hs₂ _ => ?_
      have hfr₂ := hfr.mono (hle₁.trans hle₂)
      cases b with
      | true => exact execBlock_keeps hm (fun hn => (h hn).2.1) hs₂ hfr₂
      | false => exact execBlock_keeps hm (fun hn => (h hn).2.2) hs₂ hfr₂
  | .while c b, W, s, fr, h, hs, hfr => by
      simp only [exec, hm.rounds]
      refine whileLoop_keeps (fun {W₁ s₁ fr₁} hs₁ hfr₁ hn₁ => ?_)
        (fun {W₁ s₁ fr₁} hs₁ hfr₁ hn₁ => ?_) hs hfr rfl
      · refine Keeps.bind (eval_keeps hm (fun hn => (h (hn₁ ▸ hn)).1) hs₁ hfr₁) ?_
        intro W₂ v s₂ _ hs₂ _
        exact (asBool_keeps hs₂ v).weaken fun _ _ _ _ => trivial
      · rw [← hn₁]
        exact execBlock_keeps hm (fun hn => (h (hn₁ ▸ hn)).2) hs₁ hfr₁
  | .break, W, s, fr, _, hs, hfr => .pure hs ⟨hfr, rfl, by simp⟩
  | .for x a z b, W, s, fr, h, hs, hfr => by
      simp only [exec]
      refine Keeps.bind (eval_keeps hm (fun hn => (h hn).1) hs hfr) fun W₁ v s₁ hle₁ hs₁ _ => ?_
      refine Keeps.bind (asInt_keeps hs₁ v) fun W₂ first s₂ hle₂ hs₂ _ => ?_
      have hfr₂ := hfr.mono (hle₁.trans hle₂)
      refine Keeps.bind (eval_keeps hm (fun hn => (h hn).2.1) hs₂ hfr₂) fun W₃ w s₃ hle₃ hs₃ _ => ?_
      refine Keeps.bind (asInt_keeps hs₃ w) fun W₄ last s₄ hle₄ hs₄ _ => ?_
      refine forLoop_keeps (fun {W₅ s₅ fr₅} hs₅ hfr₅ hn₅ => ?_) hs₄ (hfr₂.mono (hle₃.trans hle₄)) rfl
      rw [← hn₅]
      exact execBlock_keeps hm (fun hn => (h (hn₅ ▸ hn)).2.2) hs₅ hfr₅

theorem execBlock_keeps (hm : m.Keeps m') : ∀ {ss : List Stmt} {W : World} {s : Store} {fr : Frame},
    (some fr.activation = O.activation → Stmt.ConfinedBlock O.toConfinement ss) → s.Respects O W →
      fr.Respects O W →
      Keeps O W (FlowKeeps O fr.activation) (execBlock m fr ss s) (execBlock m' fr ss s)
  | [], W, s, fr, _, hs, hfr => .pure hs ⟨hfr, rfl, by simp⟩
  | c :: ss, W, s, fr, h, hs, hfr => by
      simp only [execBlock]
      refine Keeps.bind (exec_keeps hm (fun hn => (h hn).1) hs hfr) fun W₁ p s₁ _ hs₁ hp => ?_
      obtain ⟨flow, fr₁⟩ := p
      obtain ⟨hfr₁, hn₁, hret⟩ := hp
      cases flow with
      | next =>
          rw [← hn₁]
          exact execBlock_keeps hm (fun hn => (h (hn₁ ▸ hn)).2) hs₁ hfr₁
      | «break» => exact .pure hs₁ ⟨hfr₁, hn₁, by simp⟩
      | «return» v => exact .pure hs₁ ⟨hfr₁, hn₁, hret⟩

end

/-! ## Activations -/

/-- Running a body keeps secrets, if it is confined or of another activation than the observed one. -/
theorem activate_keeps (hm : m.Keeps m') {cells : List (LocalId × CellAddr)} {ps : List LocalId}
    {b : List Stmt} {vs : List Value}
    (hs : Store.Respects { s with activations := s.activations + 1 } O W)
    (hcells : (Frame.mk s.activations cells).Respects O W)
    (hb : some s.activations = O.activation → Stmt.ConfinedBlock O.toConfinement b)
    (hvs : Value.OpenList W vs) :
    Keeps O W (fun W' v => v.Open W') (activate m cells ps b vs s) (activate m' cells ps b vs s) := by
  have hact : Run.newActivation s = .ok s.activations { s with activations := s.activations + 1 } :=
    rfl
  unfold activate
  rw [Run.bind_apply_of_ok hact, Run.bind_apply_of_ok hact]
  refine Keeps.bind (Frame.bindParams_keeps hs hcells hvs) fun W₁ fr₁ s₁ _ hs₁ hfr₁ => ?_
  have hb₁ : some fr₁.activation = O.activation → Stmt.ConfinedBlock O.toConfinement b := by
    rw [hfr₁.2]
    exact hb
  refine Keeps.bind (execBlock_keeps hm hb₁ hs₁ hfr₁.1) fun W₂ p s₂ _ hs₂ hp => ?_
  obtain ⟨flow, fr₂⟩ := p
  refine .pure hs₂ ?_
  cases flow with
  | next | «break» => trivial
  | «return» v => exact hp.2.2 v rfl

/-- Another activation than the observed one, on cells that are private to nobody. -/
theorem activate_keeps_of_public (hm : m.Keeps m') {cells : List (LocalId × CellAddr)}
    {ps : List LocalId} {b : List Stmt} {vs : List Value} (hs : s.Respects O W)
    (hcells : ∀ {x c}, cells.lookup x = some c → W.cells c.index = some none)
    (hvs : Value.OpenList W vs) :
    Keeps O W (fun W' v => v.Open W') (activate m cells ps b vs s) (activate m' cells ps b vs s) := by
  have hother : some s.activations ≠ O.activation := fun h =>
    Nat.lt_irrefl _ (hs.begun s.activations h.symm)
  refine Keeps.of_le W.le_begin (activate_keeps hm hs.begin ⟨fun {x c} hx => ?_, ?_⟩
    (fun h => absurd h hother) (hvs.mono W.le_begin))
  · rw [Observer.owner?, if_neg fun h => hother h.1]
    exact hcells hx
  · rw [show W.begin.activations = W.activations + 1 from rfl, hs.activations]
    exact Nat.lt_succ_self _

/-! ### The observer of an activation -/

/-- The world of an activation that begins on a store: nothing is a secret or private yet. -/
def World.fresh (s : Store) : World where
  cells := fun c => if c < s.cells.size then some none else none
  slices := fun a => if a < s.slices.size then some none else none
  activations := s.activations + 1

/-- Whatever is seen in a store is open when an activation begins on it. -/
theorem Store.Respects.open_fresh (hs : s.Respects O W) {v : Value} {sites : List Site}
    (hv : v.Seen W sites) : v.Open (World.fresh s) := by
  rcases hv with hv | ⟨a, σ, rfl, ha, -⟩
  · refine hv.of_public (fun hc => ?_) fun ha => ?_
    · simp [World.fresh, hs.cell_lt hc]
    · simp [World.fresh, hs.slice_lt ha]
  · simp [Value.Open, World.fresh, hs.slice_lt ha]

/-- The observer of the activation of a function that is about to begin. -/
def Observer.ofFunction (f : Function) (n : Nat) : Observer := ⟨f.confinement, some n⟩

/-- When an activation begins, it has no secrets yet. -/
theorem Store.Respects.fresh (hs : s.Respects O W) (f : Function) :
    Store.Respects { s with activations := s.activations + 1 } (.ofFunction f s.activations)
      (.fresh s) := by
  refine ⟨fun {c v} hv => ?_, fun {a sl} hsl => ?_, fun {c o} ho => ?_, fun {a o} ho => ?_, rfl, ?_⟩
  · have hlt : c < s.cells.size := (Array.getElem?_eq_some_iff.1 hv).1
    obtain ⟨o, -, hseen⟩ := hs.cells hv
    exact ⟨none, by simp [World.fresh, hlt], .inl (hs.open_fresh hseen)⟩
  · have hlt : a < s.slices.size := (Array.getElem?_eq_some_iff.1 hsl).1
    obtain ⟨-, hitems, horigin⟩ := hs.slices hsl
    refine ⟨?_, fun v hv => hs.open_fresh (show v.Seen W [] from .inl (hitems v hv)),
      fun o ho => Nat.lt_succ_of_lt (horigin o ho)⟩
    -- the activations of older sequences have smaller numbers
    have hno : (Observer.ofFunction f s.activations).secret? sl.origin = none := by
      cases ho : sl.origin with
      | none => rfl
      | some o =>
          have hlt := horigin o (by rw [ho]; rfl)
          simp only [Observer.secret?, Observer.ofFunction, Option.some.injEq]
          rw [if_neg fun h => absurd h.1 (Nat.ne_of_lt hlt)]
    simp [World.fresh, hlt, hno]
  · by_contra hlt
    simp only [World.fresh, if_neg hlt] at ho
    cases ho
  · by_contra hlt
    simp only [World.fresh, if_neg hlt] at ho
    cases ho
  · intro n hn
    cases hn
    exact Nat.lt_succ_self _

/-- At the end of an activation, what survives is no secret. -/
theorem public_of_survives {f : Function} {W' : World} {v : Value} {t : Store} {a : SliceAddr}
    (ht : t.Respects (.ofFunction f s.activations) W')
    (hle : (World.fresh s).Le W') (hv : v.Open W')
    (hsurvives : Survives s v t a) : W'.slices a.index = some none := by
  cases hsurvives with
  | value h => exact ht.not_secret h hv
  | @cell c w old hc h =>
      have hpublic : W'.cells c = some none := hle.cells (by simp [World.fresh, old])
      obtain ⟨o, ho, hseen⟩ := ht.cells hc
      rw [hpublic, Option.some.injEq] at ho
      subst ho
      exact ht.not_secret h hseen.open_of_nil
  | @slice b old h => exact ht.not_secret h (hle.slices (by simp [World.fresh, old]))

/-- **An activation that runs confined code keeps its frame clear.** -/
theorem keepsClear_of_activate (hm : m.Keeps m') (hs : s.Respects O W) {f : Function}
    {cells : List (LocalId × CellAddr)} {ps : List LocalId} {b : List Stmt} {vs : List Value}
    (hcells : ∀ {x c}, cells.lookup x = some c →
      c.index < s.cells.size ∧ x ∈ f.confinement.held)
    (hb : Stmt.ConfinedBlock f.confinement b) (hvs : Value.OpenList W vs) {v : Value} {t : Store}
    (hrun : activate m' cells ps b vs s = .ok v t) : KeepsClear f s v t := by
  have hfresh := hs.fresh f
  have hframe : (Frame.mk s.activations cells).Respects (.ofFunction f s.activations)
      (World.fresh s) := by
    refine ⟨fun {x c} hx => ?_, Nat.lt_succ_self _⟩
    rw [Observer.owner?, if_neg fun h => h.2 (hcells hx).2]
    simp [World.fresh, (hcells hx).1]
  have hargs : Value.OpenList (World.fresh s) vs :=
    (Value.openList_iff vs).2 fun w hw =>
      hs.open_fresh (show w.Seen W [] from .inl ((Value.openList_iff vs).1 hvs w hw))
  obtain ⟨W', hle, ht, hv⟩ :=
    (activate_keeps hm hfresh hframe (fun _ => hb) hargs).2 v t hrun
  intro a sl site hsl horigin hsurvives
  have hopen := public_of_survives ht hle hv hsurvives
  rw [(ht.slices hsl).1, horigin, Option.some.injEq] at hopen
  simp only [Observer.secret?, Observer.ofFunction, true_and] at hopen
  split at hopen
  · cases hopen
  · rename_i hkept
    have hheap : (site, .heap) ∈ f.placements := by
      simpa [Function.confinement] using hkept
    exact ⟨hheap, Function.not_mem_placements_stack hheap⟩

/-! ## Calls -/

/-- A watched run that is as it should be is a run. -/
theorem watched_keeps {alarm : Outcome Value} {good : Store → Value → Store → Prop}
    {r r' : Run Value} {Q : World → Value → Prop} (hr : Keeps O W Q (r s) (r' s))
    (hgood : ∀ v t, r' s = .ok v t → good s v t) :
    Keeps O W Q (Run.watched alarm good r s) (r' s) := by
  have heq : Run.watched alarm good r s = r' s := by
    unfold Run.watched
    rw [hr.1]
    cases ho : r' s with
    | ok v t => exact if_pos (hgood v t ho)
    | fault e t => rfl
    | exhausted => rfl
  rw [heq]
  exact ⟨rfl, hr.2⟩

section Calls

variable (alarm : Outcome Value) (code : Code)

/-- Calling a function by its name. -/
theorem Code.callOn_keeps (hm : m.Keeps m') (hs : s.Respects O W) (name : String) {vs : List Value}
    (hvs : Value.OpenList W vs) :
    Keeps O W (fun W' v => v.Open W') (code.callOnWatched alarm m name vs s)
      (code.callOn m' name vs s) := by
  unfold callOnWatched callOn
  cases hf : code.functions.lookup name with
  | none => exact .fault _ _
  | some f =>
      refine watched_keeps (activate_keeps_of_public hm hs (by simp) hvs) fun v t hrun => ?_
      exact keepsClear_of_activate hm hs (by simp) f.confined_body hvs hrun

/-- Calling a closure. -/
theorem Code.closure_keeps (hm : m.Keeps m') (hs : s.Respects O W) {i : Nat} {ps : List LocalId}
    {b : List Stmt} {env : List (LocalId × CellAddr)}
    (hf : (Callable.closure i ps b env).Open W) {vs : List Value} (hvs : Value.OpenList W vs) :
    Keeps O W (fun W' v => v.Open W')
      (Run.watched alarm
        (fun before v after => ∀ f ∈ code.functions.map Prod.snd,
          (Callable.closure i ps b env).WrittenIn f → KeepsClear f before v after)
        (activate m (closureCells env) ps b vs) s)
      (activate m' (closureCells env) ps b vs s) := by
  refine watched_keeps (activate_keeps_of_public hm hs (fun {x c} hx => ?_) hvs) ?_
  · exact hf (x, c) (mem_of_lookup_closureCells hx)
  · intro v t hrun f _ hwritten
    obtain ⟨rs, j, hpart⟩ := hwritten
    obtain ⟨hheld, hbody⟩ := Function.confined_closure hpart
    refine keepsClear_of_activate hm hs (fun {x c} hx => ?_) hbody hvs hrun
    have hmem := mem_of_lookup_closureCells hx
    exact ⟨hs.cell_lt (hf _ hmem), hheld x (List.mem_map_of_mem hmem)⟩

/-- **Watched and plain engines call alike**, and keep the secrets of every observer. -/
theorem Code.engine_keeps : ∀ time : Nat, (code.engineWatched alarm time).Keeps (code.engine time) := by
  intro time
  induction time with
  | zero => exact ⟨rfl, rfl, fun _ _ _ => .exhausted, fun _ => .exhausted⟩
  | succ time ih =>
      refine ⟨rfl, rfl, ?_, fun hs => ?_⟩
      · intro O W s f vs hs hf hvs
        simp only [engineWatched, engine, callValueWatched, callValue]
        cases f with
        | func c =>
            have hc : c.Open W := hf.resolve_right fun ⟨a, ha⟩ => by cases ha
            simp only [asCallable, pure_bind]
            cases c with
            | function name => exact Code.callOn_keeps alarm code ih hs name hvs
            | builtin b => exact builtin_keeps hs b vs
            | closure i ps b env => exact Code.closure_keeps alarm code ih hs hc hvs
        | _ => exact .fault _ _
      · simp only [engineWatched, engine, callValueWatched, callValue, asCallable, pure_bind]
        exact builtin_keeps hs .println _

end Calls

/-! ## Sessions -/

mutual

/-- A value that comes from outside has no secrets. -/
theorem Datum.load_keeps : ∀ (d : Datum) {W : World} {s : Store}, s.Respects O W →
    Keeps O W (fun W' v => v.Open W') (d.load s) (d.load s)
  | .unit, _, _, hs | .int _, _, _, hs | .bool _, _, _, hs | .str _, _, _, hs
  | .function _, _, _, hs | .builtin _, _, _, hs => .pure hs trivial
  | .list ds, _, _, hs => by
      simp only [Datum.load]
      refine Keeps.bind (Datum.loadList_keeps ds hs) fun W₁ vs s₁ _ hs₁ hvs => ?_
      exact newSlice_none_keeps hs₁ fun v hv => (Value.openList_iff vs).1 hvs v (by simpa using hv)
  | .tuple ds, _, _, hs => by
      simp only [Datum.load]
      exact Keeps.bind (Datum.loadList_keeps ds hs) fun W₁ vs s₁ _ hs₁ hvs => .pure hs₁ hvs

theorem Datum.loadList_keeps : ∀ (ds : List Datum) {W : World} {s : Store}, s.Respects O W →
    Keeps O W (fun W' vs => Value.OpenList W' vs) (Datum.loadList ds s) (Datum.loadList ds s)
  | [], _, _, hs => .pure hs trivial
  | d :: ds, _, _, hs => by
      simp only [Datum.loadList]
      exact Keeps.bind (Datum.load_keeps d hs) fun W₁ v s₁ _ hs₁ hv =>
        Keeps.bind (Datum.loadList_keeps ds hs₁) fun W₂ vs s₂ hle₂ hs₂ hvs =>
          .pure hs₂ ⟨hv.mono hle₂, hvs⟩

end

/-- The observer of nothing. -/
def Observer.nothing : Observer := ⟨⟨[], [], fun _ => false⟩, none⟩

/-! ## Stores between calls

What is called need not start from nothing: the store may hold what earlier calls have left, and
arguments may be values that earlier calls gave. All that matters is that there are no addresses yet of
what is still to be made. -/

/-- The world in which everything in a store is open. -/
def Store.openWorld (s : Store) : World where
  cells := fun c => if c < s.cells.size then some none else none
  slices := fun a => if a < s.slices.size then some none else none
  activations := s.activations

/-- A value names no cells and sequences but those of the store. -/
def Value.StaysIn (s : Store) (v : Value) : Prop := v.Open s.openWorld

/-- All values in a store name cells and sequences of the store, and its sequences were made by
activations that there have been. -/
structure Store.Closed (s : Store) : Prop where
  cells : ∀ v ∈ s.cells, v.StaysIn s
  slices : ∀ sl ∈ s.slices, (∀ v ∈ sl.items, v.StaysIn s) ∧ ∀ o ∈ sl.origin, o.activation < s.activations

theorem Observer.secret?_nothing (o : Option Origin) : Observer.nothing.secret? o = none := by
  cases o with
  | none => rfl
  | some o => simp [Observer.secret?, Observer.nothing]

/-- Whoever observes nothing finds a closed store in order. -/
theorem Store.Closed.respects (h : s.Closed) : s.Respects Observer.nothing s.openWorld := by
  refine ⟨fun {c v} hv => ?_, fun {a sl} hsl => ?_, fun {c o} hc => ?_, fun {a o} ha => ?_, rfl, ?_⟩
  · have hlt : c < s.cells.size := (Array.getElem?_eq_some_iff.1 hv).1
    exact ⟨none, by simp [openWorld, hlt], .inl (h.cells v (Array.mem_of_getElem? hv))⟩
  · have hlt : a < s.slices.size := (Array.getElem?_eq_some_iff.1 hsl).1
    rw [Observer.secret?_nothing]
    exact ⟨by simp [openWorld, hlt], h.slices sl (Array.mem_of_getElem? hsl)⟩
  · by_contra hlt
    simp only [openWorld, if_neg hlt] at hc
    cases hc
  · by_contra hlt
    simp only [openWorld, if_neg hlt] at ha
    cases ha
  · intro n hn
    cases hn

theorem Store.Respects.staysIn (h : s.Respects O W) {v : Value} (hv : v.Open W) : v.StaysIn s := by
  refine hv.of_public (fun hc => ?_) fun ha => ?_
  · simp [Store.openWorld, h.cell_lt hc]
  · simp [Store.openWorld, h.slice_lt ha]

theorem Store.Respects.closed (h : s.Respects Observer.nothing W) : s.Closed := by
  refine ⟨fun v hv => ?_, fun sl hsl => ?_⟩
  · obtain ⟨c, hc⟩ := Array.mem_iff_getElem?.1 hv
    obtain ⟨o, -, hseen⟩ := h.cells hc
    exact h.staysIn (h.open_of_released hseen fun _ _ => rfl)
  · obtain ⟨a, ha⟩ := Array.mem_iff_getElem?.1 hsl
    obtain ⟨-, hitems, horigin⟩ := h.slices ha
    exact ⟨fun v hv => h.staysIn (hitems v hv), horigin⟩

/-- A store on which nothing has been made yet is closed. -/
theorem Store.closed_output (text : String) : Store.Closed { output := text } := by
  constructor <;> simp

/-- Calls on closed stores are found clear, and leave a closed store. -/
theorem callFunction_keeps_closed (alarm : Outcome Value) (code : Code) (time : Nat) (name : String)
    {vs : List Value} (hs : s.Closed) (hvs : ∀ v ∈ vs, v.StaysIn s) :
    callFunctionWatched alarm code time name vs s = callFunction code time name vs s ∧
      ∀ v t, callFunction code time name vs s = .ok v t → t.Closed ∧ v.StaysIn t := by
  have hkeeps : Keeps Observer.nothing s.openWorld (fun W' v => v.Open W')
      (callFunctionWatched alarm code time name vs s) (callFunction code time name vs s) :=
    Code.callOn_keeps alarm code (Code.engine_keeps alarm code time) hs.respects name
      ((Value.openList_iff vs).2 hvs)
  refine ⟨hkeeps.1, fun v t hrun => ?_⟩
  obtain ⟨W', -, ht, hv⟩ := hkeeps.2 v t hrun
  exact ⟨ht.closed, ht.staysIn hv⟩

/-- **Stack placement is safe.** In every call of every session, the watch finds every activation with
its frame clear: whatever the alarm would be, it is not given. The same is so for a call on what
earlier calls have left, whatever values of that store the arguments are, and such a call leaves a
store and gives a value to which this applies again. -/
theorem Session.callWatched_eq_call (alarm : Outcome Value) (time : Nat) :
    (∀ (s : Session) (name : String) (args : List Datum),
      s.callWatched alarm time name args = s.call time name args) ∧
    ∀ (code : Code) (s : Store) (name : String) (vs : List Value), s.Closed →
      (∀ v ∈ vs, v.StaysIn s) →
        callFunctionWatched alarm code time name vs s = callFunction code time name vs s ∧
          ∀ v t, callFunction code time name vs s = .ok v t → t.Closed ∧ v.StaysIn t := by
  refine ⟨fun s name args => ?_, fun code s name vs hs hvs =>
    callFunction_keeps_closed alarm code time name hs hvs⟩
  have hs := (Store.closed_output s.output).respects
  have hcall : ∀ (W' : World) (vs : List Value) (t : Store),
      World.Le (Store.openWorld { output := s.output }) W' → t.Respects Observer.nothing W' →
      Value.OpenList W' vs → Keeps Observer.nothing W' (fun W'' v => v.Open W'')
        (callFunctionWatched alarm s.code time name vs t) (callFunction s.code time name vs t) :=
    fun W' vs t _ ht hvs =>
      Code.callOn_keeps alarm s.code (Code.engine_keeps alarm s.code time) ht name hvs
  exact (Keeps.bind (Datum.loadList_keeps args hs) hcall).1

/-- A call of a function on a closure that an earlier call has given, and that has captured a sequence
of that call. The function makes a sequence in its frame, prints it, and returns what the closure
gives. -/
theorem Session.callWatched_eq_call_closure :
    let i : Info := ⟨.slice .i64, ⟨0, 0⟩⟩
    let f : Function :=
      { name := "f"
        params := [⟨0⟩]
        results := [.slice .i64]
        body := [
          .bind ⟨1⟩ (.slice [] ⟨0⟩ i),
          .expr (.call (.builtin .println i) [.local ⟨1⟩ i] i),
          .return [.call (.local ⟨0⟩ i) [] i]]
        ctx := {}
        span := ⟨0, 0⟩ }
    let s : Store :=
      { cells := #[.slice ⟨0⟩]
        slices := #[⟨#[.int 1], some ⟨⟨0⟩, 0⟩, by decide⟩]
        closures := 1
        activations := 1 }
    let g : Value := .func (.closure 0 [] [.return [.local ⟨0⟩ i]] [(⟨0⟩, ⟨0⟩)])
    f.placements = [(⟨0⟩, .stack)] ∧ s.Closed ∧ g.StaysIn s ∧
      ∀ (alarm : Outcome Value) (time : Nat),
        callFunctionWatched alarm (Code.ofModule ⟨[f]⟩ .refuse) time "f" [g] s
          = callFunction (Code.ofModule ⟨[f]⟩ .refuse) time "f" [g] s := by
  intro i f s g
  have hclosed : s.Closed := by
    constructor <;> simp [s, Value.StaysIn, Value.Open, Store.openWorld]
  have hstays : g.StaysIn s := by
    simp [g, s, Value.StaysIn, Value.Open, Callable.Open, Store.openWorld]
  refine ⟨by decide, hclosed, hstays, fun alarm time => ?_⟩
  exact ((Session.callWatched_eq_call alarm time).2 _ s "f" [g] hclosed
    (by simpa using hstays)).1

/-- A sequence that is only printed lives in the frame, one that is returned on the heap. -/
example :
    let i : Info := ⟨.slice .i64, ⟨0, 0⟩⟩
    let f : Function :=
      { name := "f"
        params := []
        results := [.slice .i64]
        body := [
          .bind ⟨0⟩ (.slice [] ⟨0⟩ i),
          .expr (.call (.builtin .println i) [.local ⟨0⟩ i] i),
          .return [.slice [] ⟨1⟩ i]]
        ctx := {}
        span := ⟨0, 0⟩ }
    f.placements = [(⟨0⟩, .stack), (⟨1⟩, .heap)] := by
  decide

end Rivulet.Machine
