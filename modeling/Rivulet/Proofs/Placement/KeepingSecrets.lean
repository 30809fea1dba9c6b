import Rivulet.Proofs.Machine.Operations
import Rivulet.Proofs.Placement.Secrecy

set_option autoImplicit false

/-! # Operations keep secrets

What the operations of the machine do to a store that respects a world: binding, reading and
overwriting locals, capturing, operators, sequences, allocations, builtins, and the element loop of a
map. None of them asks for values of the right types, since a value of a wrong kind only makes a run
stop. -/

namespace Rivulet.Machine

open Ir

/-! ## Runs that keep secrets -/

/-- Two runs end alike, and if they end with a value, the store respects a larger world, which with
the value satisfies `Q`. -/
def Keeps {α : Type} (O : Observer) (W : World) (Q : World → α → Prop) (o o' : Outcome α) : Prop :=
  o = o' ∧ ∀ a s, o' = .ok a s → ∃ W', W.Le W' ∧ s.Respects O W' ∧ Q W' a

namespace Keeps

variable {α β : Type} {O : Observer} {W W' : World} {s : Store} {Q Q' : World → α → Prop}
  {R : World → β → Prop}

theorem ok {a : α} (hs : s.Respects O W) (h : Q W a) : Keeps O W Q (.ok a s) (.ok a s) :=
  ⟨rfl, fun _ _ heq => by cases heq; exact ⟨W, .refl W, hs, h⟩⟩

theorem pure (hs : s.Respects O W) {a : α} (h : Q W a) :
    Keeps O W Q ((pure a : Run α) s) ((Pure.pure a : Run α) s) :=
  ok hs h

theorem fault (e : Fault) (s : Store) : Keeps O W Q (.fault e s) (.fault e s) :=
  ⟨rfl, fun _ _ heq => by cases heq⟩

theorem exhausted : Keeps O W Q .exhausted .exhausted := ⟨rfl, fun _ _ heq => by cases heq⟩

/-- A run that goes on in a larger world. -/
theorem of_le {o o' : Outcome α} (h : W.Le W') (ho : Keeps O W' Q o o') : Keeps O W Q o o' := by
  refine ⟨ho.1, fun a s heq => ?_⟩
  obtain ⟨W'', hle, hs, hq⟩ := ho.2 a s heq
  exact ⟨W'', h.trans hle, hs, hq⟩

theorem weaken {o o' : Outcome α} (ho : Keeps O W Q o o')
    (h : ∀ W' a, W.Le W' → Q W' a → Q' W' a) : Keeps O W Q' o o' := by
  refine ⟨ho.1, fun a s heq => ?_⟩
  obtain ⟨W', hle, hs, hq⟩ := ho.2 a s heq
  exact ⟨W', hle, hs, h W' a hle hq⟩

/-- **Runs that keep secrets can be sequenced.** -/
theorem bind {r r' : Run α} {f f' : α → Run β} {t : Store} (hr : Keeps O W Q (r s) (r' t))
    (hf : ∀ W' a s', W.Le W' → s'.Respects O W' → Q W' a → Keeps O W' R (f a s') (f' a s')) :
    Keeps O W R ((r >>= f) s) ((r' >>= f') t) := by
  obtain ⟨heq, hok⟩ := hr
  rw [Run.bind_apply, Run.bind_apply, heq]
  cases hrs : r' t with
  | ok a s' =>
      obtain ⟨W', hle, hs', hq⟩ := hok a s' hrs
      exact (hf W' a s' hle hs' hq).of_le hle
  | fault e s' => exact fault e s'
  | exhausted => exact exhausted

end Keeps

variable {O : Observer} {W W' : World} {s : Store}

/-! ## Frames -/

/-- The cells of a frame are private to their locals as they should be. -/
structure Frame.Respects (fr : Frame) (O : Observer) (W : World) : Prop where
  cells : ∀ {x c}, fr.cells.lookup x = some c →
    W.cells c.index = some (O.owner? fr.activation x)
  begun : fr.activation < W.activations

theorem Frame.Respects.mono {fr : Frame} (h : fr.Respects O W) (hle : W.Le W') :
    fr.Respects O W' :=
  ⟨fun hc => hle.cells (h.cells hc), Nat.lt_of_lt_of_le h.begun hle.activations⟩

/-- What a local may refer to, its cell may hold, and the other way round. -/
theorem Observer.mem_exprSites_of_cellSites {n : Nat} {x : LocalId} {i : Info} {σ : Site}
    (h : σ ∈ O.cellSites (O.owner? n x)) : σ ∈ O.exprSites n (.local x i) := by
  unfold owner? at h
  split at h
  · rename_i hin
    rw [exprSites, if_pos hin.1]
    exact h
  · cases h

theorem Frame.read_keeps {fr : Frame} (hs : s.Respects O W) (hfr : fr.Respects O W) (x : LocalId)
    (i : Info) :
    Keeps O W (fun W' v => v.Seen W' (O.exprSites fr.activation (.local x i))) (fr.read x s)
      (fr.read x s) := by
  cases hl : fr.cells.lookup x with
  | none =>
      simp only [Frame.read, Frame.cell, hl]
      exact .fault _ _
  | some c =>
      rw [Frame.read, Frame.cell_of_lookup hl, pure_bind]
      refine .ok hs ?_
      cases hv : s.cells[c.index]? with
      | none => exact .inl trivial
      | some v =>
          obtain ⟨o, ho, hseen⟩ := hs.cells hv
          rw [hfr.cells hl, Option.some.injEq] at ho
          subst ho
          exact hseen.weaken fun σ hσ => O.mem_exprSites_of_cellSites hσ

theorem Frame.bind_keeps {fr : Frame} (hs : s.Respects O W) (hfr : fr.Respects O W) {x : LocalId}
    {v : Value} (hv : v.Seen W (O.cellSites (O.owner? fr.activation x))) :
    Keeps O W (fun W' fr' => fr'.Respects O W' ∧ fr'.activation = fr.activation) (fr.bind x v s)
      (fr.bind x v s) := by
  have hle : W.Le (W.addCell s.cells.size (O.owner? fr.activation x)) :=
    World.le_addCell hs.cell_free _
  refine Keeps.of_le hle (.ok (hs.pushCell hv) ⟨⟨fun {y c} hy => ?_, hfr.begun⟩, rfl⟩)
  simp only [Frame.lookup_setCell] at hy
  split at hy
  · rename_i hyx
    cases hy
    simp [World.addCell, hyx]
  · exact hle.cells (hfr.cells hy)

theorem Frame.bindAll_keeps : ∀ {ps : List LocalId} {vs : List Value} {W : World} {s : Store}
    {fr : Frame}, s.Respects O W → fr.Respects O W → Value.OpenList W vs →
      Keeps O W (fun W' fr' => fr'.Respects O W' ∧ fr'.activation = fr.activation)
        (fr.bindAll ps vs s) (fr.bindAll ps vs s)
  | [], _, W, s, fr, hs, hfr, _ | _ :: _, [], W, s, fr, hs, hfr, _ => by
      unfold Frame.bindAll
      exact .pure hs ⟨hfr, rfl⟩
  | x :: ps, v :: vs, W, s, fr, hs, hfr, hvs => by
      refine Keeps.bind (Frame.bind_keeps hs hfr (.inl hvs.1)) fun W₁ fr₁ s₁ hle₁ hs₁ hfr₁ => ?_
      refine (Frame.bindAll_keeps hs₁ hfr₁.1 (hvs.2.mono hle₁)).weaken fun W₂ fr₂ _ h => ?_
      exact ⟨h.1, h.2.trans hfr₁.2⟩

theorem Frame.bindParams_keeps {ps : List LocalId} {vs : List Value} {fr : Frame}
    (hs : s.Respects O W) (hfr : fr.Respects O W) (hvs : Value.OpenList W vs) :
    Keeps O W (fun W' fr' => fr'.Respects O W' ∧ fr'.activation = fr.activation)
      (fr.bindParams ps vs s) (fr.bindParams ps vs s) := by
  unfold Frame.bindParams
  split
  · exact Frame.bindAll_keeps hs hfr hvs
  · exact .fault _ _

theorem Frame.write_keeps {fr : Frame} (hs : s.Respects O W) (hfr : fr.Respects O W) {x : LocalId}
    {v : Value} (hv : v.Seen W (O.cellSites (O.owner? fr.activation x))) :
    Keeps O W (fun _ _ => True) (fr.write x v s) (fr.write x v s) := by
  cases hl : fr.cells.lookup x with
  | none =>
      simp only [Frame.write, Frame.cell, hl]
      exact .fault _ _
  | some c =>
      rw [Frame.write, Frame.cell_of_lookup hl, pure_bind]
      exact .ok (hs.writeCell (hfr.cells hl) hv) trivial

/-- Captured cells are private to nobody. -/
theorem captureCells_keeps {fr : Frame} (hs : s.Respects O W) (hfr : fr.Respects O W) :
    ∀ {cs : List LocalId}, (∀ x ∈ cs, O.owner? fr.activation x = none) →
      Keeps O W (fun W' env => ∀ p ∈ env, W'.cells p.2.index = some none) (captureCells fr cs s)
        (captureCells fr cs s)
  | [], _ => .pure hs (by simp)
  | x :: cs, hcs => by
      simp only [List.forall_mem_cons] at hcs
      cases hl : fr.cells.lookup x with
      | none =>
          simp only [captureCells, Frame.cell, hl]
          exact .fault _ _
      | some c =>
          rw [captureCells, Frame.cell_of_lookup hl, pure_bind]
          have hpublic : W.cells c.index = some none := by rw [hfr.cells hl, hcs.1]
          refine Keeps.bind (captureCells_keeps hs hfr hcs.2) fun W₁ env s₁ hle₁ hs₁ henv => ?_
          refine .pure hs₁ ?_
          simp only [List.forall_mem_cons]
          exact ⟨hle₁.cells hpublic, henv⟩

/-! ## Kinds of values -/

theorem asInt_keeps (hs : s.Respects O W) (v : Value) :
    Keeps O W (fun _ n => v = .int n) (asInt v s) (asInt v s) := by
  cases v with
  | int n => exact .pure hs rfl
  | _ => exact .fault _ _

theorem asBool_keeps (hs : s.Respects O W) (v : Value) :
    Keeps O W (fun _ b => v = .bool b) (asBool v s) (asBool v s) := by
  cases v with
  | bool b => exact .pure hs rfl
  | _ => exact .fault _ _

theorem asSlice_keeps (hs : s.Respects O W) (v : Value) :
    Keeps O W (fun _ a => v = .slice a) (asSlice v s) (asSlice v s) := by
  cases v with
  | slice a => exact .pure hs rfl
  | _ => exact .fault _ _

/-! ## Operators -/

theorem unary_keeps (hs : s.Respects O W) (op : UnaryOp) (v : Value) :
    Keeps O W (fun W' w => w.Open W') (unary op v s) (unary op v s) := by
  cases op <;> cases v <;> first | exact .pure hs trivial | exact .fault _ _

/-- A scalar gives no secret away. -/
theorem Value.open_of_scalar {v : Value} (h : v.Scalar) : v.Open W := by
  cases v <;> trivial

theorem binary_keeps (hs : s.Respects O W) (op : BinaryOp) (v w : Value) :
    Keeps O W (fun W' x => x.Open W') (binary op v w s) (binary op v w s) := by
  unfold binary
  split
  · exact .ok hs trivial
  split
  · exact .ok hs trivial
  split
  · rename_i a b
    cases hb : Word.binary op a b with
    | ok x => exact .pure hs (Value.open_of_scalar (Word.binary_scalar hb))
    | error e => exact .fault _ _
  · rename_i a b
    cases hb : strings? op a b with
    | some x => exact .pure hs (Value.open_of_scalar (strings?_scalar hb))
    | none => exact .fault _ _
  · exact .fault _ _

/-! ## Sequences -/

/-- A new sequence is a secret if its origin says so. -/
theorem newSlice_keeps (hs : s.Respects O W) {vs : Array Value} {origin : Option Origin}
    (hvs : ∀ v ∈ vs, v.Open W) (horigin : ∀ o ∈ origin, o.activation < W.activations) :
    Keeps O W (fun W' v => v.Seen W' (O.secret? origin).toList) (Run.newSlice vs origin s)
      (Run.newSlice vs origin s) := by
  rw [hs.activations] at horigin
  unfold Run.newSlice
  split
  · rename_i hfit
    have hle : W.Le (W.addSlice s.slices.size (O.secret? origin)) :=
      World.le_addSlice hs.slice_free _
    refine Keeps.of_le hle (.ok (hs.pushSlice ⟨vs, origin, hfit⟩ hvs horigin) ?_)
    cases hsec : O.secret? origin with
    | none => exact .inl (by simp [Value.Open, World.addSlice])
    | some σ => exact .inr ⟨_, σ, rfl, by simp [World.addSlice], by simp⟩
  · exact .exhausted

/-- A sequence without an origin is no secret. -/
theorem newSlice_none_keeps (hs : s.Respects O W) {vs : Array Value} (hvs : ∀ v ∈ vs, v.Open W) :
    Keeps O W (fun W' v => v.Open W') (Run.newSlice vs none s) (Run.newSlice vs none s) :=
  (newSlice_keeps hs hvs (by simp)).weaken fun _ _ _ hv => hv.open_of_nil

theorem sliceLength_keeps (hs : s.Respects O W) (a : SliceAddr) :
    Keeps O W (fun _ _ => True) (Run.sliceLength a s) (Run.sliceLength a s) :=
  .ok hs trivial

theorem position_keeps (hs : s.Respects O W) (i : Int64) (n : Nat) (b : Bounds) :
    Keeps O W (fun _ _ => True) (position i n b s) (position i n b s) := by
  unfold position
  split
  · exact .pure hs trivial
  · cases b <;> exact .fault _ _

/-- An element is open, be it of a secret. -/
theorem readItem_keeps (hs : s.Respects O W) (a : SliceAddr) (i : Nat) :
    Keeps O W (fun W' v => v.Open W') (Run.readItem a i s) (Run.readItem a i s) := by
  refine .ok hs ?_
  cases hsl : s.slices[a.index]? with
  | none => trivial
  | some sl =>
      cases hv : sl.items[i]? with
      | none => simp [hv, Value.Open]
      | some v =>
          simp only [Option.bind_some, hv, Option.getD_some]
          exact (hs.slices hsl).2.1 v (Array.mem_of_getElem? hv)

mutual

theorem zero_keeps : ∀ (t : Ir.Ty) {W : World} {s : Store}, s.Respects O W →
    Keeps O W (fun W' v => v.Open W') (zero t s) (zero t s)
  | .i64, _, _, hs | .bool, _, _, hs | .str, _, _, hs | .func _ _, _, _, hs | .unit, _, _, hs
  | .invalid, _, _, hs => .pure hs trivial
  | .slice _, _, _, hs => newSlice_none_keeps hs (by simp)
  | .tuple ts, _, _, hs => by
      simp only [zero]
      exact Keeps.bind (zeros_keeps ts hs) fun W₁ vs s₁ _ hs₁ hvs => .pure hs₁ hvs

theorem zeros_keeps : ∀ (ts : List Ir.Ty) {W : World} {s : Store}, s.Respects O W →
    Keeps O W (fun W' vs => Value.OpenList W' vs) (zeros ts s) (zeros ts s)
  | [], _, _, hs => .pure hs trivial
  | t :: ts, _, _, hs => by
      simp only [zeros]
      exact Keeps.bind (zero_keeps t hs) fun W₁ v s₁ _ hs₁ hv =>
        Keeps.bind (zeros_keeps ts hs₁) fun W₂ vs s₂ hle₂ hs₂ hvs => .pure hs₂ ⟨hv.mono hle₂, hvs⟩

end

theorem fill_keeps (t : Ir.Ty) : ∀ (n : Nat) {vs : Array Value} {W : World} {s : Store},
    s.Respects O W → (∀ v ∈ vs, v.Open W) →
      Keeps O W (fun W' ws => ∀ v ∈ ws, v.Open W') (fill t n vs s) (fill t n vs s)
  | 0, _, _, _, hs, hvs => .pure hs hvs
  | n + 1, vs, _, _, hs, hvs => by
      simp only [fill]
      refine Keeps.bind (zero_keeps t hs) fun W₁ v s₁ hle₁ hs₁ hv => ?_
      refine fill_keeps t n hs₁ fun w hw => ?_
      rcases Array.mem_push.1 hw with hw | rfl
      · exact (hvs w hw).mono hle₁
      · exact hv

theorem allocate_keeps (hs : s.Respects O W) (t : Ir.Ty) (n : Int64) {origin : Origin}
    (horigin : origin.activation < W.activations) :
    Keeps O W (fun W' v => v.Seen W' (O.secret? (some origin)).toList) (allocate t n origin s)
      (allocate t n origin s) := by
  unfold allocate
  split
  · exact .fault _ _
  · refine Keeps.bind (fill_keeps t _ hs (by simp)) fun W₁ vs s₁ hle₁ hs₁ hvs => ?_
    refine newSlice_keeps hs₁ hvs fun o ho => ?_
    cases ho
    exact Nat.lt_of_lt_of_le horigin hle₁.activations

/-- What is made at a site, the expression may be. -/
theorem Observer.mem_exprSites_of_secret {n : Nat} {e : Expr} {σ τ : Site}
    (he : O.aliases.ofExpr e = [σ]) (h : τ ∈ (O.secret? (some ⟨σ, n⟩)).toList) :
    τ ∈ O.exprSites n e := by
  simp only [secret?] at h
  split at h
  · rename_i hin
    rw [exprSites, if_pos hin.1, he]
    simpa using h
  · cases h

/-! ## Builtins -/

theorem builtin_keeps (hs : s.Respects O W) (b : Builtin) (vs : List Value) :
    Keeps O W (fun W' v => v.Open W') (builtin b vs s) (builtin b vs s) := by
  unfold builtin
  split
  · exact .ok (hs.congr rfl rfl rfl) trivial
  · exact .pure hs trivial
  · exact .ok hs trivial
  · exact .pure hs trivial
  · exact .fault _ _

/-! ## Engines -/

/-- Two engines call values alike, and their calls keep the secrets of every observer. A sequence is
no callable, so it does not matter whether it is a secret; and `println` keeps nothing. -/
structure Engine.Keeps (m m' : Engine) : Prop where
  maps : m.maps = m'.maps
  rounds : m.rounds = m'.rounds
  call : ∀ {O : Observer} {W : World} {s : Store} {f : Value} {vs : List Value}, s.Respects O W →
    (f.Open W ∨ ∃ a, f = .slice a) → Value.OpenList W vs →
    Machine.Keeps O W (fun W' v => v.Open W') (m.call f vs s) (m'.call f vs s)
  print : ∀ {O : Observer} {W : World} {s : Store} {vs : List Value}, s.Respects O W →
    Machine.Keeps O W (fun W' v => v.Open W') (m.call (.func (.builtin .println)) vs s)
      (m'.call (.func (.builtin .println)) vs s)

theorem Value.Seen.callee {v : Value} {sites : List Site} (h : v.Seen W sites) :
    v.Open W ∨ ∃ a, v = .slice a := by
  rcases h with h | ⟨a, -, rfl, -⟩
  · exact .inl h
  · exact .inr ⟨a, rfl⟩

theorem mapItems_keeps {m m' : Engine} (hm : m.Keeps m') (a : SliceAddr) :
    ∀ {n i : Nat} {f : Value} {vs : Array Value} {W : World} {s : Store}, s.Respects O W →
      (f.Open W ∨ ∃ b, f = .slice b) → (∀ v ∈ vs, v.Open W) →
      Keeps O W (fun W' ws => ∀ v ∈ ws, v.Open W') (mapItems m.call f a n i vs s)
        (mapItems m'.call f a n i vs s)
  | 0, _, _, _, _, _, hs, _, hvs => .pure hs hvs
  | n + 1, i, f, vs, W, s, hs, hf, hvs => by
      simp only [mapItems]
      refine Keeps.bind (readItem_keeps hs a i) fun W₁ v s₁ hle₁ hs₁ hv => ?_
      have hf₁ : f.Open W₁ ∨ ∃ b, f = .slice b := hf.imp_left (·.mono hle₁)
      refine Keeps.bind (hm.call hs₁ hf₁ ⟨hv, trivial⟩) fun W₂ w s₂ hle₂ hs₂ hw => ?_
      refine mapItems_keeps hm a hs₂ (hf₁.imp_left (·.mono hle₂)) fun x hx => ?_
      rcases Array.mem_push.1 hx with hx | rfl
      · exact (hvs x hx).mono (hle₁.trans hle₂)
      · exact hw

end Rivulet.Machine
