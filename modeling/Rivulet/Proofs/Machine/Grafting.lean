import Rivulet.Proofs.Machine.Views

set_option autoImplicit false

/-! # Operations behind a store

Every operation of the machine does behind another store what it does alone: it ends in the same way,
with the same values up to the shift of addresses, and with the graft of the store. This is proved
together with what keeps it true, that the store shows a later view and that the values can be
seen. -/

namespace Rivulet.Machine

open Ir

/-! ## Two runs -/

/-- How a run and the same run behind the store `s₀` ended. The first began with the view `V` of the
store `s`. If it ended with a value, its store shows a later view, and `Q` says what is known of the
two values. -/
def Grafted {α β : Type} (s₀ : Store) (V : View) (s : Store) (Q : View → Store → α → β → Prop) :
    Outcome α → Outcome β → Prop
  | .ok a t, .ok b t' => t' = s₀.graft t ∧ ∃ V', Later V s V' t ∧ t.Shows V' ∧ Q V' t a b
  | .fault e t, .fault e' t' => e' = e ∧ t' = s₀.graft t
  | .exhausted, .exhausted => True
  | _, _ => False

/-- Two results that are the same, as they have no addresses. -/
def Same {α : Type} (_ : View) (_ : Store) (a b : α) : Prop := b = a

/-- A value that can be seen, and the same value behind the store `s₀`. -/
def SeenValue (s₀ : Store) (V : View) (_ : Store) (v w : Value) : Prop :=
  v.Visible V ∧ w = v.shift s₀.offset

/-- Values that can be seen, and the same values behind the store `s₀`. -/
def SeenValues (s₀ : Store) (V : View) (_ : Store) (vs ws : List Value) : Prop :=
  (∀ v ∈ vs, v.Visible V) ∧ ws = vs.map (Value.shift s₀.offset)

/-- All cells of a frame can be seen. -/
def Frame.Visible (fr : Frame) (V : View) : Prop :=
  ∀ x c, fr.cells.lookup x = some c → V.cells c.index

/-- A frame with cells that can be seen, and the same frame behind the store `s₀`. -/
def SeenFrame (s₀ : Store) (V : View) (_ : Store) (fr fr' : Frame) : Prop :=
  fr.Visible V ∧ fr' = fr.shift s₀.offset

theorem Frame.Visible.mono {fr : Frame} {V V' : View} (h : fr.Visible V) (hle : V.Le V') :
    fr.Visible V' :=
  fun x c hx => hle.cells (h x c hx)

namespace Grafted

variable {α β γ δ : Type} {s₀ : Store} {V V' : View} {s t : Store} {Q Q' : View → Store → α → β → Prop}
  {R : View → Store → γ → δ → Prop}

theorem ok {a : α} {b : β} (hlater : Later V s V' t) (ht : t.Shows V') (h : Q V' t a b) :
    Grafted s₀ V s Q (.ok a t) (.ok b (s₀.graft t)) :=
  ⟨rfl, V', hlater, ht, h⟩

theorem pure {a : α} {b : β} (hs : s.Shows V) (h : Q V s a b) :
    Grafted s₀ V s Q ((pure a : Run α) s) ((pure b : Run β) (s₀.graft s)) :=
  ok (.refl V s) hs h

theorem fault {e e' : Fault} (h : e' = e) : Grafted s₀ V s Q (.fault e t) (.fault e' (s₀.graft t)) :=
  ⟨h, rfl⟩

theorem stop (e : Fault) :
    Grafted s₀ V s Q ((Run.stop e : Run α) t) ((Run.stop e : Run β) (s₀.graft t)) :=
  fault rfl

/-- A run that began with a later view. -/
theorem of_later {o : Outcome α} {o' : Outcome β} (h : Later V s V' t)
    (ho : Grafted s₀ V' t Q o o') : Grafted s₀ V s Q o o' := by
  cases o with
  | ok a u =>
      cases o' with
      | ok b u' =>
          obtain ⟨heq, V'', hlater, hu, hq⟩ := ho
          exact ⟨heq, V'', h.trans hlater, hu, hq⟩
      | fault e u' => exact ho
      | exhausted => exact ho
  | fault e u => cases o' <;> exact ho
  | exhausted => cases o' <;> exact ho

/-- What is known of the results may be changed together with the view. -/
theorem settle {o : Outcome α} {o' : Outcome β} (ho : Grafted s₀ V s Q o o')
    (h : ∀ V' t a b, Later V s V' t → t.Shows V' → Q V' t a b →
      ∃ V'', Later V s V'' t ∧ t.Shows V'' ∧ Q' V'' t a b) : Grafted s₀ V s Q' o o' := by
  cases o with
  | ok a u =>
      cases o' with
      | ok b u' =>
          obtain ⟨heq, V', hlater, hu, hq⟩ := ho
          exact ⟨heq, h V' u a b hlater hu hq⟩
      | fault e u' => exact ho
      | exhausted => exact ho
  | fault e u => cases o' <;> exact ho
  | exhausted => cases o' <;> exact ho

/-- **Two runs behind each other.** What comes second may be judged from where the first began. -/
theorem bind_from {r : Run α} {r' : Run β} {f : α → Run γ} {f' : β → Run δ} {u u' : Store}
    (hr : Grafted s₀ V s Q (r u) (r' u'))
    (hf : ∀ V' t a b, Later V s V' t → t.Shows V' → Q V' t a b →
      Grafted s₀ V s R (f a t) (f' b (s₀.graft t))) :
    Grafted s₀ V s R ((r >>= f) u) ((r' >>= f') u') := by
  rw [Run.bind_apply, Run.bind_apply]
  cases hru : r u with
  | ok a t =>
      rw [hru] at hr
      cases hru' : r' u' with
      | ok b t' =>
          rw [hru'] at hr
          obtain ⟨rfl, V', hlater, ht, hq⟩ := hr
          exact hf V' t a b hlater ht hq
      | fault e t' => rw [hru'] at hr; exact hr.elim
      | exhausted => rw [hru'] at hr; exact hr.elim
  | fault e t =>
      rw [hru] at hr
      cases hru' : r' u' with
      | ok b t' => rw [hru'] at hr; exact hr.elim
      | fault e' t' => rw [hru'] at hr; exact hr
      | exhausted => rw [hru'] at hr; exact hr.elim
  | exhausted =>
      rw [hru] at hr
      cases hru' : r' u' with
      | ok b t' => rw [hru'] at hr; exact hr.elim
      | fault e' t' => rw [hru'] at hr; exact hr.elim
      | exhausted => trivial

/-- **Two runs behind each other**, each judged from where it began. -/
theorem bind {r : Run α} {r' : Run β} {f : α → Run γ} {f' : β → Run δ} {u u' : Store}
    (hr : Grafted s₀ V s Q (r u) (r' u'))
    (hf : ∀ V' t a b, Later V s V' t → t.Shows V' → Q V' t a b →
      Grafted s₀ V' t R (f a t) (f' b (s₀.graft t))) :
    Grafted s₀ V s R ((r >>= f) u) ((r' >>= f') u') :=
  hr.bind_from fun V' t a b hlater ht hq => (hf V' t a b hlater ht hq).of_later hlater

end Grafted

variable {s₀ : Store} {V : View} {s : Store}

/-! ## Kinds of values -/

/-- A value of a wrong kind is reported by its text. -/
theorem clash_grafted {α : Type} {Q : View → Store → α → α → Prop} (hs : s.Shows V) {v : Value}
    (hv : v.Visible V) (clash : String → Clash) :
    Grafted s₀ V s Q ((Run.render v >>= fun text => (Run.clash (clash text) : Run α)) s)
      ((Run.render (v.shift s₀.offset) >>= fun text => (Run.clash (clash text) : Run α))
        (s₀.graft s)) := by
  refine .fault ?_
  rw [hs.render_graft s₀ hv]

theorem asInt_grafted (hs : s.Shows V) {v : Value} (hv : v.Visible V) :
    Grafted s₀ V s Same (asInt v s) (asInt (v.shift s₀.offset) (s₀.graft s)) := by
  cases v with
  | int n => exact .pure hs rfl
  | _ => exact clash_grafted hs hv .notInteger

theorem asBool_grafted (hs : s.Shows V) {v : Value} (hv : v.Visible V) :
    Grafted s₀ V s Same (asBool v s) (asBool (v.shift s₀.offset) (s₀.graft s)) := by
  cases v with
  | bool b => exact .pure hs rfl
  | _ => exact clash_grafted hs hv .notBool

theorem asSlice_grafted (hs : s.Shows V) {v : Value} (hv : v.Visible V) :
    Grafted s₀ V s (fun V' _ a b => (Value.slice a).Visible V' ∧ b = a.shift s₀.offset) (asSlice v s)
      (asSlice (v.shift s₀.offset) (s₀.graft s)) := by
  cases v with
  | slice a => exact .pure hs ⟨hv, rfl⟩
  | _ => exact clash_grafted hs hv .notSequence

theorem asCallable_grafted (hs : s.Shows V) {v : Value} (hv : v.Visible V) :
    Grafted s₀ V s (fun V' _ c d => c.Shown V' ∧ d = c.shift s₀.offset) (asCallable v s)
      (asCallable (v.shift s₀.offset) (s₀.graft s)) := by
  cases v with
  | func c => exact .pure hs ⟨hv, rfl⟩
  | _ => exact clash_grafted hs hv .notCallable

/-! ## Operators -/

/-- A scalar is the same behind another store. -/
theorem Value.Scalar.seen {v : Value} (h : v.Scalar) : SeenValue s₀ V s v v :=
  ⟨h.shown, (h.shift_eq s₀.offset).symm⟩

theorem unary_grafted (hs : s.Shows V) (op : UnaryOp) {v : Value} (hv : v.Visible V) :
    Grafted s₀ V s (SeenValue s₀) (unary op v s) (unary op (v.shift s₀.offset) (s₀.graft s)) := by
  cases op with
  | not =>
      cases v with
      | bool b => exact .pure hs (Value.Scalar.seen (v := .bool !b) trivial)
      | _ => exact clash_grafted hs hv .unaryOperand
  | negate =>
      cases v with
      | int n => exact .pure hs (Value.Scalar.seen (v := .int (-n)) trivial)
      | _ => exact clash_grafted hs hv .unaryOperand

theorem badOperands_grafted (hs : s.Shows V) (op : BinaryOp) {v w : Value} (hv : v.Visible V)
    (hw : w.Visible V) :
    Grafted s₀ V s (SeenValue s₀) (badOperands op v w s)
      (badOperands op (v.shift s₀.offset) (w.shift s₀.offset) (s₀.graft s)) := by
  refine .fault ?_
  rw [hs.render_graft s₀ hv, hs.render_graft s₀ hw]

theorem binary_grafted (hs : s.Shows V) (op : BinaryOp) {v w : Value} (hv : v.Visible V)
    (hw : w.Visible V) :
    Grafted s₀ V s (SeenValue s₀) (binary op v w s)
      (binary op (v.shift s₀.offset) (w.shift s₀.offset) (s₀.graft s)) := by
  have hbad : Grafted s₀ V s (SeenValue s₀) _ _ := badOperands_grafted hs op hv hw
  unfold binary
  by_cases heq : op = .eq
  · rw [if_pos heq, if_pos heq]
    refine .ok (.refl V s) hs ?_
    rw [hs.same_graft s₀ hv hw]
    exact Value.Scalar.seen trivial
  by_cases hne : op = .notEq
  · rw [if_neg heq, if_pos hne, if_neg heq, if_pos hne]
    refine .ok (.refl V s) hs ?_
    rw [hs.same_graft s₀ hv hw]
    exact Value.Scalar.seen trivial
  rw [if_neg heq, if_neg hne, if_neg heq, if_neg hne]
  -- two integers or two strings; anything else is a clash
  cases v with
  | int a =>
      cases w with
      | int b =>
          simp only [Value.shift]
          cases hb : Word.binary op a b with
          | ok x => exact .pure hs (Word.binary_scalar hb).seen
          | error e => exact .stop e
      | _ => exact hbad
  | str a =>
      cases w with
      | str b =>
          simp only [Value.shift]
          cases hb : strings? op a b with
          | some x => exact .pure hs (strings?_scalar hb).seen
          | none => exact hbad
      | _ => exact hbad
  | _ => exact hbad

/-! ## Sequences -/

theorem Store.size_slices_graft (s₀ s : Store) :
    (⟨(s₀.graft s).slices.size⟩ : SliceAddr) = SliceAddr.shift s₀.offset ⟨s.slices.size⟩ := by
  simp [Store.graft, SliceAddr.shift, Store.offset]

theorem Store.size_cells_graft (s₀ s : Store) :
    (⟨(s₀.graft s).cells.size⟩ : CellAddr) = CellAddr.shift s₀.offset ⟨s.cells.size⟩ := by
  simp [Store.graft, CellAddr.shift, Store.offset]

theorem position_grafted (hs : s.Shows V) (i : Int64) (n : Nat) (b : Bounds) :
    Grafted s₀ V s Same (position i n b s) (position i n b (s₀.graft s)) := by
  unfold position
  split
  · exact .pure hs rfl
  · cases b <;> exact .stop _

theorem sliceLength_grafted (hs : s.Shows V) (a : SliceAddr) :
    Grafted s₀ V s Same (Run.sliceLength a s) (Run.sliceLength (a.shift s₀.offset) (s₀.graft s)) := by
  refine .ok (.refl V s) hs ?_
  rw [Same, Store.getElem?_slices_graft]
  cases s.slices[a.index]? with
  | none => rfl
  | some sl => simp [Slice.shift]

/-- An element can be seen, be it of a hidden sequence. -/
theorem readItem_grafted (hs : s.Shows V) (a : SliceAddr) (i : Nat) :
    Grafted s₀ V s (SeenValue s₀) (Run.readItem a i s)
      (Run.readItem (a.shift s₀.offset) i (s₀.graft s)) := by
  refine .ok (.refl V s) hs ?_
  rw [Store.getElem?_slices_graft]
  cases hsl : s.slices[a.index]? with
  | none => exact Value.Scalar.seen trivial
  | some sl =>
      have hget : (sl.shift s₀.offset).items[i]? = sl.items[i]?.map (Value.shift s₀.offset) := by
        simp [Slice.shift]
      simp only [Option.map_some, Option.bind_some, hget]
      cases hv : sl.items[i]? with
      | none => exact Value.Scalar.seen trivial
      | some v => exact ⟨hs.items hsl v (Array.mem_of_getElem? hv), rfl⟩

/-- A new sequence can be seen. -/
theorem newSlice_grafted (hs : s.Shows V) {vs : Array Value} (origin : Option Origin)
    (hvs : ∀ v ∈ vs, v.Visible V) :
    Grafted s₀ V s (SeenValue s₀) (Run.newSlice vs origin s)
      (Run.newSlice (vs.map (Value.shift s₀.offset)) (origin.map (Origin.shift s₀.offset))
        (s₀.graft s)) := by
  unfold Run.newSlice
  by_cases hfit : vs.size < Slice.capacity
  · have hfit' : (vs.map (Value.shift s₀.offset)).size < Slice.capacity := by simpa using hfit
    obtain ⟨hshows, hlater⟩ := hs.pushSlice ⟨vs, origin, hfit⟩ hvs
    rw [dif_pos hfit, dif_pos hfit']
    refine ⟨(s₀.graft_pushSlice s ⟨vs, origin, hfit⟩).symm, _, hlater, hshows, ?_, ?_⟩
    · exact ⟨V.clock, if_pos rfl, Nat.lt_succ_self _⟩
    · exact congrArg Value.slice (Store.size_slices_graft s₀ s)
  · have hfit' : ¬ (vs.map (Value.shift s₀.offset)).size < Slice.capacity := by simpa using hfit
    rw [dif_neg hfit, dif_neg hfit']
    trivial

mutual

theorem zero_grafted : ∀ (t : Ir.Ty) {V : View} {s : Store}, s.Shows V →
    Grafted s₀ V s (SeenValue s₀) (zero t s) (zero t (s₀.graft s))
  | .i64, _, _, hs | .bool, _, _, hs | .str, _, _, hs | .func _ _, _, _, hs | .unit, _, _, hs
  | .invalid, _, _, hs => .pure hs (Value.Scalar.seen trivial)
  | .slice _, _, s, hs => by
      have hnew : Grafted s₀ _ s (SeenValue s₀) (Run.newSlice #[] none s) _ :=
        newSlice_grafted hs none (by simp)
      simpa [zero] using hnew
  | .tuple ts, _, _, hs => by
      simp only [zero]
      refine .bind (zeros_grafted ts hs) fun V₁ s₁ vs ws _ hs₁ hvs => .pure hs₁ ?_
      exact ⟨(Value.visible_tuple vs).2 hvs.1, by rw [hvs.2, Value.shift, Value.shiftList_eq]⟩

theorem zeros_grafted : ∀ (ts : List Ir.Ty) {V : View} {s : Store}, s.Shows V →
    Grafted s₀ V s (SeenValues s₀) (zeros ts s) (zeros ts (s₀.graft s))
  | [], _, _, hs => .pure hs ⟨by simp, rfl⟩
  | t :: ts, _, _, hs => by
      simp only [zeros]
      refine .bind (zero_grafted t hs) fun V₁ s₁ v w _ hs₁ hv => ?_
      refine .bind (zeros_grafted ts hs₁) fun V₂ s₂ vs ws hlater₂ hs₂ hvs => .pure hs₂ ⟨?_, ?_⟩
      · exact List.forall_mem_cons.2 ⟨hv.1.mono hlater₂.le, hvs.1⟩
      · rw [hv.2, hvs.2, List.map_cons]

end

theorem fill_grafted (t : Ir.Ty) (n : Nat) {vs : Array Value} (hs : s.Shows V)
    (hvs : ∀ v ∈ vs, v.Visible V) :
    Grafted s₀ V s (fun V' _ us ws => (∀ v ∈ us, v.Visible V') ∧ ws = us.map (Value.shift s₀.offset))
      (fill t n vs s) (fill t n (vs.map (Value.shift s₀.offset)) (s₀.graft s)) := by
  induction n generalizing vs V s with
  | zero => exact .pure hs ⟨hvs, rfl⟩
  | succ n ih =>
      simp only [fill]
      refine .bind (zero_grafted t hs) fun V₁ s₁ v w hlater₁ hs₁ hv => ?_
      obtain ⟨hvisible, rfl⟩ := hv
      rw [← Array.map_push]
      refine ih hs₁ fun u hu => ?_
      rcases Array.mem_push.1 hu with hu | rfl
      · exact (hvs u hu).mono hlater₁.le
      · exact hvisible

/-! ## Builtins -/

theorem print_grafted (hs : s.Shows V) (text : String) :
    Grafted s₀ V s Same (Run.print text s) (Run.print text (s₀.graft s)) := by
  obtain ⟨hshows, hlater⟩ :=
    hs.congr (t := { s with output := s.output ++ text ++ "\n" }) rfl rfl
  refine ⟨?_, V, hlater, hshows, rfl⟩
  simp only [Store.graft, String.append_assoc]

theorem builtin_grafted (hs : s.Shows V) (b : Builtin) {vs : List Value}
    (hvs : ∀ v ∈ vs, v.Visible V) :
    Grafted s₀ V s (SeenValue s₀) (builtin b vs s)
      (builtin b (vs.map (Value.shift s₀.offset)) (s₀.graft s)) := by
  have hcount : Grafted s₀ V s (SeenValue s₀)
      ((Run.clash (.builtinArguments b vs.length) : Run Value) s)
      ((Run.clash (.builtinArguments b (vs.map (Value.shift s₀.offset)).length) : Run Value)
        (s₀.graft s)) := by
    rw [List.length_map]
    exact .stop _
  -- the number of arguments is the same on both sides, and so is the fault about it
  match vs, hvs, hcount with
  | [], _, hcount => cases b <;> exact hcount
  | v :: w :: vs, _, hcount =>
      have hmany : ∀ (v w : Value) (vs : List Value), builtin b (v :: w :: vs) =
          Run.clash (.builtinArguments b (v :: w :: vs).length) := by
        intro v w vs
        cases b <;> cases v <;> rfl
      rw [List.map_cons, List.map_cons, hmany, hmany]
      exact hcount
  | [v], hvs, hcount =>
      have hv : v.Visible V := hvs v (by simp)
      cases b with
      | println =>
          simp only [builtin, List.map_cons, List.map_nil, Run.bind_apply, Run.render]
          rw [hs.render_graft s₀ hv]
          exact .bind (print_grafted hs (s.render v)) fun V₁ s₁ _ _ _ hs₁ _ =>
            .pure hs₁ (Value.Scalar.seen (v := .unit) trivial)
      | str =>
          cases v with
          | int n => exact .pure hs (Value.Scalar.seen trivial)
          | _ => exact hcount
      | len =>
          cases v with
          | slice a =>
              refine .bind (sliceLength_grafted hs a) fun V₁ s₁ n n' _ hs₁ hn => .pure hs₁ ?_
              rw [hn]
              exact Value.Scalar.seen trivial
          | str text => exact .pure hs (Value.Scalar.seen trivial)
          | _ => exact hcount

/-! ## Locals -/

section Locals

variable {fr : Frame}

theorem Frame.read_grafted (hs : s.Shows V) {x : LocalId}
    (hx : ∀ c, fr.cells.lookup x = some c → V.cells c.index) :
    Grafted s₀ V s (SeenValue s₀) (fr.read x s) ((fr.shift s₀.offset).read x (s₀.graft s)) := by
  have hlookup : (fr.shift s₀.offset).cells.lookup x = _ := lookup_shiftCells fr.cells x
  cases hl : fr.cells.lookup x with
  | none =>
      rw [hl] at hlookup
      simp only [Frame.read, Frame.cell, hl, hlookup]
      exact .stop _
  | some c =>
      rw [hl] at hlookup
      rw [Frame.read, Frame.read, Frame.cell_of_lookup hl, Frame.cell_of_lookup hlookup, pure_bind,
        pure_bind]
      obtain ⟨v, hv, hvisible⟩ := hs.cells (hx c hl)
      refine .ok (.refl V s) hs ?_
      rw [Store.getElem?_cells_graft, hv]
      exact ⟨hvisible, rfl⟩

theorem Frame.write_grafted (hs : s.Shows V) (hfr : fr.Visible V) (x : LocalId) {v : Value}
    (hv : v.Visible V) :
    Grafted s₀ V s (fun _ _ _ _ => True) (fr.write x v s)
      ((fr.shift s₀.offset).write x (v.shift s₀.offset) (s₀.graft s)) := by
  have hlookup : (fr.shift s₀.offset).cells.lookup x = _ := lookup_shiftCells fr.cells x
  cases hl : fr.cells.lookup x with
  | none =>
      rw [hl] at hlookup
      simp only [Frame.write, Frame.cell, hl, hlookup]
      exact .stop _
  | some c =>
      rw [hl] at hlookup
      rw [Frame.write, Frame.write, Frame.cell_of_lookup hl, Frame.cell_of_lookup hlookup, pure_bind,
        pure_bind]
      obtain ⟨hshows, hlater⟩ := hs.writeCell (hfr x c hl) hv
      exact ⟨(s₀.graft_writeCell s c v).symm, V, hlater, hshows, trivial⟩

/-- The frame after a binding. -/
theorem Frame.bind_shift (fr : Frame) (s₀ s : Store) (x : LocalId) (v : Value) :
    ∃ fr', fr.bind x v s = .ok fr' { s with cells := s.cells.push v } ∧
      (fr.shift s₀.offset).bind x (v.shift s₀.offset) (s₀.graft s) =
        .ok (fr'.shift s₀.offset) (s₀.graft { s with cells := s.cells.push v }) ∧
      fr'.cells = Frame.setCell x ⟨s.cells.size⟩ fr.cells := by
  refine ⟨_, rfl, ?_, rfl⟩
  rw [Store.graft_pushCell]
  have hcells : Frame.setCell x ⟨(s₀.graft s).cells.size⟩ (shiftCells s₀.offset fr.cells) =
      shiftCells s₀.offset (Frame.setCell x ⟨s.cells.size⟩ fr.cells) := by
    rw [Store.size_cells_graft, setCell_shift]
  show Outcome.ok (Frame.mk _ (Frame.setCell x ⟨(s₀.graft s).cells.size⟩ _)) _ = _
  rw [show (fr.shift s₀.offset).cells = shiftCells s₀.offset fr.cells from rfl, hcells]
  rfl

theorem Frame.bind_grafted (hs : s.Shows V) (hfr : fr.Visible V) (x : LocalId) {v : Value}
    (hv : v.Visible V) :
    Grafted s₀ V s (SeenFrame s₀) (fr.bind x v s)
      ((fr.shift s₀.offset).bind x (v.shift s₀.offset) (s₀.graft s)) := by
  obtain ⟨fr', hbind, hbind', hcells⟩ := fr.bind_shift s₀ s x v
  obtain ⟨hshows, hlater⟩ := hs.pushCell hv
  rw [hbind, hbind']
  refine .ok hlater hshows ⟨fun y c hy => ?_, rfl⟩
  rw [hcells, Frame.lookup_setCell] at hy
  split at hy
  · cases hy
    exact .inl rfl
  · exact .inr (hfr y c hy)

theorem Frame.bindAll_grafted (ps : List LocalId) {vs : List Value} (hs : s.Shows V)
    (hfr : fr.Visible V) (hvs : ∀ v ∈ vs, v.Visible V) :
    Grafted s₀ V s (SeenFrame s₀) (fr.bindAll ps vs s)
      ((fr.shift s₀.offset).bindAll ps (vs.map (Value.shift s₀.offset)) (s₀.graft s)) := by
  induction ps generalizing vs V s fr with
  | nil =>
      unfold Frame.bindAll
      exact .pure hs ⟨hfr, rfl⟩
  | cons x ps ih =>
      cases vs with
      | nil =>
          unfold Frame.bindAll
          exact .pure hs ⟨hfr, rfl⟩
      | cons v vs =>
          rw [List.forall_mem_cons] at hvs
          rw [List.map_cons, Frame.bindAll, Frame.bindAll]
          refine .bind (Frame.bind_grafted hs hfr x hvs.1) fun V₁ s₁ fr₁ fr₁' hlater₁ hs₁ hfr₁ => ?_
          obtain ⟨hvisible, rfl⟩ := hfr₁
          exact ih hs₁ hvisible fun w hw => (hvs.2 w hw).mono hlater₁.le

theorem Frame.bindParams_grafted (hs : s.Shows V) (hfr : fr.Visible V) (ps : List LocalId)
    {vs : List Value} (hvs : ∀ v ∈ vs, v.Visible V) :
    Grafted s₀ V s (SeenFrame s₀) (fr.bindParams ps vs s)
      ((fr.shift s₀.offset).bindParams ps (vs.map (Value.shift s₀.offset)) (s₀.graft s)) := by
  unfold Frame.bindParams
  rw [List.length_map]
  split
  · exact Frame.bindAll_grafted ps hs hfr hvs
  · exact .stop _

theorem captureCells_grafted (hs : s.Shows V) (hfr : fr.Visible V) (cs : List LocalId) :
    Grafted s₀ V s
      (fun V' _ env env' => (∀ p ∈ env, V'.cells p.2.index) ∧ env' = shiftCells s₀.offset env)
      (captureCells fr cs s) (captureCells (fr.shift s₀.offset) cs (s₀.graft s)) := by
  induction cs generalizing V s with
  | nil => exact .pure hs ⟨by simp, rfl⟩
  | cons x cs ih =>
      have hlookup : (fr.shift s₀.offset).cells.lookup x = _ := lookup_shiftCells fr.cells x
      cases hl : fr.cells.lookup x with
      | none =>
          rw [hl] at hlookup
          simp only [captureCells, Frame.cell, hl, hlookup]
          exact .stop _
      | some c =>
          rw [hl] at hlookup
          rw [captureCells, captureCells, Frame.cell_of_lookup hl, Frame.cell_of_lookup hlookup,
            pure_bind, pure_bind]
          refine .bind (ih hs hfr) fun V₁ s₁ env env' hlater₁ hs₁ henv => .pure hs₁ ⟨?_, ?_⟩
          · exact List.forall_mem_cons.2 ⟨hlater₁.le.cells (hfr x c hl), henv.1⟩
          · rw [henv.2]
            rfl

end Locals

/-! ## Identities and arguments -/

theorem newClosure_grafted (hs : s.Shows V) :
    Grafted s₀ V s (fun _ _ i j => j = s₀.closures + i) (Run.newClosure s)
      (Run.newClosure (s₀.graft s)) := by
  obtain ⟨hshows, hlater⟩ := hs.congr (t := { s with closures := s.closures + 1 }) rfl rfl
  exact ⟨rfl, V, hlater, hshows, rfl⟩

theorem newActivation_grafted (hs : s.Shows V) :
    Grafted s₀ V s (fun _ _ n k => k = s₀.activations + n) (Run.newActivation s)
      (Run.newActivation (s₀.graft s)) := by
  obtain ⟨hshows, hlater⟩ := hs.congr (t := { s with activations := s.activations + 1 }) rfl rfl
  exact ⟨rfl, V, hlater, hshows, rfl⟩

mutual

/-- A value from outside is loaded behind another store as it is alone. -/
theorem Datum.load_grafted : ∀ (d : Datum) {V : View} {s : Store}, s.Shows V →
    Grafted s₀ V s (SeenValue s₀) (d.load s) (d.load (s₀.graft s))
  | .unit, _, _, hs | .int _, _, _, hs | .bool _, _, _, hs | .str _, _, _, hs =>
      .pure hs (Value.Scalar.seen trivial)
  | .function _, _, _, hs | .builtin _, _, _, hs => .pure hs ⟨trivial, rfl⟩
  | .list ds, _, _, hs => by
      simp only [Datum.load]
      refine .bind (Datum.loadList_grafted ds hs) fun V₁ s₁ vs ws _ hs₁ hvs => ?_
      obtain ⟨hvisible, rfl⟩ := hvs
      have hnew : Grafted s₀ V₁ s₁ (SeenValue s₀) (Run.newSlice vs.toArray none s₁) _ :=
        newSlice_grafted hs₁ none (by simpa using hvisible)
      simpa using hnew
  | .tuple ds, _, _, hs => by
      simp only [Datum.load]
      refine .bind (Datum.loadList_grafted ds hs) fun V₁ s₁ vs ws _ hs₁ hvs => .pure hs₁ ?_
      exact ⟨(Value.visible_tuple vs).2 hvs.1, by rw [hvs.2, Value.shift, Value.shiftList_eq]⟩

theorem Datum.loadList_grafted : ∀ (ds : List Datum) {V : View} {s : Store}, s.Shows V →
    Grafted s₀ V s (SeenValues s₀) (Datum.loadList ds s) (Datum.loadList ds (s₀.graft s))
  | [], _, _, hs => .pure hs ⟨by simp, rfl⟩
  | d :: ds, _, _, hs => by
      simp only [Datum.loadList]
      refine .bind (Datum.load_grafted d hs) fun V₁ s₁ v w _ hs₁ hv => ?_
      refine .bind (Datum.loadList_grafted ds hs₁) fun V₂ s₂ vs ws hlater₂ hs₂ hvs => .pure hs₂ ⟨?_, ?_⟩
      · exact List.forall_mem_cons.2 ⟨hv.1.mono hlater₂.le, hvs.1⟩
      · rw [hv.2, hvs.2, List.map_cons]

end

end Rivulet.Machine
