import Rivulet.Proofs.Code.Nesting
import Rivulet.Proofs.Machine.Frames
import Rivulet.Proofs.Machine.Operations
import Rivulet.Proofs.Machine.Traces

set_option autoImplicit false

/-! # Cells that keep their value

A cell is reached from the frames and the closures that know it under the name of a local. If no code
that can run with such a frame or closure assigns to that local, the cell keeps the value with which
it was made.

A `Ledger` says of each cell whether it must keep its value. Once written it stays, so a ledger only
grows. A frame in an activation of `body` *heeds* it if no local that has a steady cell is assigned in
`body`, and a value does if the closures in it do. When `bind` makes a new cell, the ledger decides by
the body of the activation whether the cell is steady; from then on every frame and every closure
that gets to know the cell runs code that stands in that body.

`Steady` is the property that is proved of recorded runs: everything in the record fits the ledger. In
the end it says that whatever is read from a steady cell is what was bound (`Session.read_eq_bound`). -/

namespace Rivulet.Machine

open Ir

/-! ## Ledgers -/

/-- What is known of each cell: nothing, if there is no such cell; otherwise the value that it keeps,
if it has to keep one. -/
def Ledger := Nat → Option (Option Value)

namespace Ledger

/-- One ledger extends another. -/
def Le (L L' : Ledger) : Prop := ∀ c o, L c = some o → L' c = some o

theorem Le.refl (L : Ledger) : L.Le L := fun _ _ => id

theorem Le.trans {L L' L'' : Ledger} (h : L.Le L') (h' : L'.Le L'') : L.Le L'' :=
  fun c o hc => h' c o (h c o hc)

/-- Add a cell. -/
def add (L : Ledger) (c : Nat) (o : Option Value) : Ledger := fun d => if d = c then some o else L d

@[simp] theorem add_self (L : Ledger) (c : Nat) (o : Option Value) : L.add c o c = some o := by
  simp [add]

theorem le_add {L : Ledger} {c : Nat} (h : L c = none) (o : Option Value) : L.Le (L.add c o) := by
  intro d p hd
  have hne : d ≠ c := by rintro rfl; simp [h] at hd
  simp [add, hne, hd]

/-- Code that knows a cell as the local `x` does not assign to `x` if the cell is steady. -/
def Spares (L : Ledger) (body : List Stmt) (x : LocalId) (c : CellAddr) : Prop :=
  ∃ o, L c.index = some o ∧ (o ≠ none → ¬ Stmt.Assigns body x)

theorem Spares.mono {L L' : Ledger} {body : List Stmt} {x : LocalId} {c : CellAddr}
    (h : L.Spares body x c) (hle : L.Le L') : L'.Spares body x c := by
  obtain ⟨o, ho, hspares⟩ := h
  exact ⟨o, hle _ _ ho, hspares⟩

end Ledger

/-! ## Values, stores and frames -/

/-- A callable heeds a ledger. -/
def Callable.Heeds (L : Ledger) : Callable → Prop
  | .function _ | .builtin _ => True
  | .closure _ _ body env => ∀ p ∈ env, L.Spares body p.1 p.2

mutual

/-- The closures in a value heed a ledger. -/
def Value.Heeds (L : Ledger) : Value → Prop
  | .unit | .int _ | .bool _ | .str _ | .slice _ => True
  | .func c => c.Heeds L
  | .tuple vs => Value.HeedList L vs
termination_by structural v => v

/-- The closures in several values heed a ledger. -/
def Value.HeedList (L : Ledger) : List Value → Prop
  | [] => True
  | v :: vs => v.Heeds L ∧ Value.HeedList L vs
termination_by structural vs => vs

end

section Values

variable {L L' : Ledger}

theorem Value.heedList_iff (vs : List Value) : Value.HeedList L vs ↔ ∀ v ∈ vs, v.Heeds L := by
  induction vs with
  | nil => simp [Value.HeedList]
  | cons v vs ih => simp [Value.HeedList, ih]

mutual

theorem Value.Heeds.mono (hle : L.Le L') : ∀ {v : Value}, v.Heeds L → v.Heeds L'
  | .unit, _ | .int _, _ | .bool _, _ | .str _, _ | .slice _, _ => trivial
  | .func (.function _), _ | .func (.builtin _), _ => trivial
  | .func (.closure _ _ _ _), hv => fun p hp => (hv p hp).mono hle
  | .tuple vs, hv => show Value.HeedList L' vs from Value.HeedList.mono hle hv

theorem Value.HeedList.mono (hle : L.Le L') : ∀ {vs : List Value}, Value.HeedList L vs →
    Value.HeedList L' vs
  | [], _ => trivial
  | _ :: _, hvs => ⟨Value.Heeds.mono hle hvs.1, Value.HeedList.mono hle hvs.2⟩

end

theorem Value.heeds_returned {vs : List Value} (h : Value.HeedList L vs) : (returned vs).Heeds L := by
  match vs, h with
  | [], _ => trivial
  | [v], h => exact h.1
  | _ :: _ :: _, h => exact h

end Values

/-- A store heeds a ledger: the ledger knows its cells, the steady ones have their values, and all
values in it heed the ledger. -/
structure Store.Heeds (s : Store) (L : Ledger) : Prop where
  cells : ∀ {c : Nat} {v : Value}, s.cells[c]? = some v →
    ∃ o, L c = some o ∧ (∀ u ∈ o, v = u) ∧ v.Heeds L
  slices : ∀ {a : Nat} {sl : Slice}, s.slices[a]? = some sl → ∀ v ∈ sl.items, v.Heeds L
  cell_lt : ∀ {c : Nat} {o : Option Value}, L c = some o → c < s.cells.size

namespace Store.Heeds

variable {L : Ledger} {s : Store}

theorem cell_free (h : s.Heeds L) : L s.cells.size = none := by
  cases hc : L s.cells.size with
  | none => rfl
  | some o => exact absurd (h.cell_lt hc) (Nat.lt_irrefl _)

/-- Only the cells and the sequences matter. -/
theorem congr {s' : Store} (h : s.Heeds L) (hc : s'.cells = s.cells) (hs : s'.slices = s.slices) :
    s'.Heeds L := by
  refine ⟨fun hv => h.cells (hc ▸ hv), fun hsl => h.slices (hs ▸ hsl), fun ho => ?_⟩
  rw [hc]
  exact h.cell_lt ho

/-- A new cell may be steady or not. -/
theorem pushCell (h : s.Heeds L) {v : Value} {o : Option Value} (hv : v.Heeds L)
    (ho : ∀ u ∈ o, v = u) :
    Store.Heeds { s with cells := s.cells.push v } (L.add s.cells.size o) := by
  have hle : L.Le (L.add s.cells.size o) := Ledger.le_add h.cell_free o
  refine ⟨fun {c w} hw => ?_, fun hsl w hw => (h.slices hsl w hw).mono hle, fun {c p} hp => ?_⟩
  · simp only [Array.getElem?_push] at hw
    split at hw
    · rename_i hc
      cases hw
      exact ⟨o, by rw [hc, Ledger.add_self], ho, hv.mono hle⟩
    · obtain ⟨p, hp, hsteady, hheeds⟩ := h.cells hw
      exact ⟨p, hle _ _ hp, hsteady, hheeds.mono hle⟩
  · simp only [Array.size_push]
    by_cases hc : c = s.cells.size
    · omega
    · simp only [Ledger.add, if_neg hc] at hp
      exact Nat.lt_succ_of_lt (h.cell_lt hp)

/-- A cell that is not steady is overwritten. -/
theorem writeCell (h : s.Heeds L) {c : Nat} {v : Value} (hc : L c = some none) (hv : v.Heeds L) :
    Store.Heeds { s with cells := s.cells.setIfInBounds c v } L := by
  refine ⟨fun {d w} hw => ?_, h.slices, fun {d p} hp => ?_⟩
  · simp only [Array.getElem?_setIfInBounds] at hw
    split at hw
    · rename_i hdc
      subst hdc
      split at hw
      · cases hw
        exact ⟨none, hc, by simp, hv⟩
      · cases hw
    · exact h.cells hw
  · simp only [Array.size_setIfInBounds]
    exact h.cell_lt hp

theorem pushSlice (h : s.Heeds L) (sl : Slice) (hitems : ∀ v ∈ sl.items, v.Heeds L) :
    Store.Heeds { s with slices := s.slices.push sl } L := by
  refine ⟨h.cells, fun {a tl} htl => ?_, h.cell_lt⟩
  simp only [Array.getElem?_push] at htl
  split at htl
  · cases htl
    exact hitems
  · exact h.slices htl

theorem writeItem (h : s.Heeds L) {a i : Nat} {v : Value} (hv : v.Heeds L) :
    Store.Heeds { s with slices := s.slices.modify a fun sl => sl.set i v } L := by
  refine ⟨h.cells, fun {b tl} htl w hw => ?_, h.cell_lt⟩
  simp only [Array.getElem?_modify] at htl
  split at htl
  · obtain ⟨sl, hsl, rfl⟩ := Option.map_eq_some_iff.1 htl
    rcases Array.mem_or_eq_of_mem_setIfInBounds hw with hw | rfl
    · exact h.slices hsl w hw
    · exact hv
  · exact h.slices htl w hw

end Store.Heeds

/-- A frame in an activation of `body` heeds a ledger. -/
def Frame.Heeds (fr : Frame) (body : List Stmt) (L : Ledger) : Prop :=
  ∀ x c, fr.cells.lookup x = some c → L.Spares body x c

theorem Frame.Heeds.mono {L L' : Ledger} {fr : Frame} {body : List Stmt} (h : fr.Heeds body L)
    (hle : L.Le L') : fr.Heeds body L' :=
  fun x c hc => (h x c hc).mono hle

/-! ## Records -/

/-- An event fits a ledger: a cell that was bound to a local that the body does not assign to is
steady, and what was read from a steady cell is the value that it keeps. -/
def Event.Fits (L : Ledger) : Event → Prop
  | .bound body x c v => ¬ Stmt.Assigns body x → L c.index = some (some v)
  | .read _ c v => ∃ o, L c.index = some o ∧ ∀ u ∈ o, v = u

theorem Event.Fits.mono {L L' : Ledger} (hle : L.Le L') {e : Event} (h : e.Fits L) : e.Fits L' := by
  cases e with
  | bound body x c v => exact fun hx => hle _ _ (h hx)
  | read x c v =>
      obtain ⟨o, ho, hv⟩ := h
      exact ⟨o, hle _ _ ho, hv⟩

/-- A recorded run that began with the ledger `L`: its record fits a larger one, and if it ended with a
value, the store heeds this larger ledger, which with the value satisfies `Q`. -/
def Steady {α : Type} (L : Ledger) (Q : Ledger → α → Prop) (p : List Event × Outcome α) : Prop :=
  ∃ L', L.Le L' ∧ (∀ e ∈ p.1, e.Fits L') ∧ ∀ a s, p.2 = .ok a s → s.Heeds L' ∧ Q L' a

namespace Steady

variable {α β : Type} {L L' : Ledger} {s : Store} {Q : Ledger → α → Prop} {R : Ledger → β → Prop}

theorem of_fault {r : Run α} {e : Fault} {t : Store} (h : r s = .fault e t) :
    Steady L Q (Traced.ofRun r s) :=
  ⟨L, .refl L, by simp [Traced.ofRun], fun a t' ht => by simp [Traced.ofRun, h] at ht⟩

theorem of_exhausted {r : Run α} (h : r s = .exhausted) : Steady L Q (Traced.ofRun r s) :=
  ⟨L, .refl L, by simp [Traced.ofRun], fun a t' ht => by simp [Traced.ofRun, h] at ht⟩

/-- A run that ends with a value and leaves no record, in a larger ledger. -/
theorem of_ok {r : Run α} {a : α} {t : Store} (h : r s = .ok a t) (hle : L.Le L') (ht : t.Heeds L')
    (hq : Q L' a) : Steady L Q (Traced.ofRun r s) :=
  ⟨L', hle, by simp [Traced.ofRun], fun a' t' ht' => by
    simp only [Traced.ofRun, h] at ht'
    cases ht'
    exact ⟨ht, hq⟩⟩

theorem pure (hs : s.Heeds L) {a : α} (h : Q L a) : Steady L Q ((pure a : Traced α) s) :=
  of_ok rfl (.refl L) hs h

/-- **Recorded runs can be sequenced.** -/
theorem bind {r : Traced α} {f : α → Traced β} (hr : Steady L Q (r s))
    (hf : ∀ L' a s', L.Le L' → s'.Heeds L' → Q L' a → Steady L' R (f a s')) :
    Steady L R ((r >>= f) s) := by
  obtain ⟨L', hle, hfits, hok⟩ := hr
  change Steady L R (Traced.bind r f s)
  unfold Traced.bind
  rcases hrs : r s with ⟨es, ⟨a, s'⟩ | ⟨e, s'⟩ | _⟩
  · rw [hrs] at hfits hok
    obtain ⟨hs', hq⟩ := hok a s' rfl
    obtain ⟨L'', hle', hfits', hok'⟩ := hf L' a s' hle hs' hq
    refine ⟨L'', hle.trans hle', fun e he => ?_, hok'⟩
    rcases List.mem_append.1 he with he | he
    · exact (hfits e he).mono hle'
    · exact hfits' e he
  · rw [hrs] at hfits
    exact ⟨L', hle, hfits, by simp⟩
  · rw [hrs] at hfits
    exact ⟨L', hle, hfits, by simp⟩

end Steady

/-- Runs without a record are sequenced without a record. -/
theorem Traced.ofRun_bind {α β : Type} (r : Run α) (f : α → Run β) :
    ofRun (r >>= f) = ofRun r >>= fun a => ofRun (f a) := by
  funext s
  change _ = Traced.bind (ofRun r) (fun a => ofRun (f a)) s
  unfold Traced.bind ofRun
  rw [Run.bind_apply]
  cases r s <;> rfl

/-! ## Locals -/

section Locals

variable {L : Ledger} {s : Store} {fr : Frame} {body : List Stmt}

theorem Frame.readTraced_steady (hs : s.Heeds L) (hfr : fr.Heeds body L) (x : LocalId) :
    Steady L (fun L' v => v.Heeds L') (fr.readTraced x s) := by
  cases hl : fr.cells.lookup x with
  | none =>
      simp only [Frame.readTraced, Frame.cell, hl]
      exact .of_fault rfl
  | some c =>
      obtain ⟨o, ho, -⟩ := hfr x c hl
      obtain ⟨v, hv⟩ : ∃ v, s.cells[c.index]? = some v :=
        ⟨_, Array.getElem?_eq_getElem (hs.cell_lt ho)⟩
      obtain ⟨o', ho', hsteady, hheeds⟩ := hs.cells hv
      have hread : (liftM (Run.readCell c) : Traced Value) s = ([], .ok v s) := by
        simp [liftM, monadLift, MonadLift.monadLift, Traced.ofRun, Run.readCell, hv]
      have htrace : fr.readTraced x s = ([.read x c v], .ok v s) := by
        rw [Frame.readTraced, Frame.cell_of_lookup hl, Traced.bind_apply_of_ok (a := c) rfl,
          Traced.bind_apply_of_ok hread, Traced.bind_apply_of_ok rfl]
        rfl
      rw [htrace]
      refine ⟨L, .refl L, by simpa [Event.Fits] using ⟨o', ho', hsteady⟩, fun a t ht => ?_⟩
      cases ht
      exact ⟨hs, hheeds⟩

/-- **A new cell is steady if the body does not assign to its local.** -/
theorem Frame.bindTraced_steady (hs : s.Heeds L) (hfr : fr.Heeds body L) (x : LocalId) {v : Value}
    (hv : v.Heeds L) :
    Steady L (fun L' fr' => fr'.Heeds body L') (fr.bindTraced body x v s) := by
  classical
  let o : Option Value := if Stmt.Assigns body x then none else some v
  have hle : L.Le (L.add s.cells.size o) := Ledger.le_add hs.cell_free o
  have ho : ∀ u ∈ o, v = u := by
    intro u hu
    simp only [o] at hu
    split at hu
    · cases hu
    · exact Option.some.inj hu
  refine ⟨L.add s.cells.size o, hle, fun e he => ?_, fun fr' t ht => ?_⟩
  · obtain rfl : e = .bound body x ⟨s.cells.size⟩ v := List.mem_singleton.1 he
    intro hx
    rw [Ledger.add_self]
    simp only [o, if_neg hx]
  · cases ht
    refine ⟨hs.pushCell hv ho, fun y c hy => ?_⟩
    simp only [Frame.lookup_setCell] at hy
    split at hy
    · rename_i hyx
      cases hy
      refine ⟨o, Ledger.add_self _ _ _, fun hsteady => ?_⟩
      simp only [o] at hsteady
      split at hsteady
      · exact absurd rfl hsteady
      · rename_i hx
        rwa [hyx]
    · exact (hfr y c hy).mono hle

/-- A counter or a parameter gets a cell that may be overwritten. -/
theorem Frame.bind_steady (hs : s.Heeds L) (hfr : fr.Heeds body L) (x : LocalId) {v : Value}
    (hv : v.Heeds L) :
    Steady L (fun L' fr' => fr'.Heeds body L') (Traced.ofRun (fr.bind x v) s) := by
  have hle : L.Le (L.add s.cells.size none) := Ledger.le_add hs.cell_free none
  refine .of_ok rfl hle (hs.pushCell hv (by simp)) fun y c hy => ?_
  simp only [Frame.lookup_setCell] at hy
  split at hy
  · cases hy
    exact ⟨none, Ledger.add_self _ _ _, by simp⟩
  · exact (hfr y c hy).mono hle

theorem Frame.bindAll_steady (ps : List LocalId) : ∀ {vs : List Value} {L : Ledger} {s : Store}
    {fr : Frame}, s.Heeds L → fr.Heeds body L → Value.HeedList L vs →
      Steady L (fun L' fr' => fr'.Heeds body L') (Traced.ofRun (fr.bindAll ps vs) s) := by
  induction ps with
  | nil =>
      intro vs L s fr hs hfr _
      unfold Frame.bindAll
      exact .pure hs hfr
  | cons x ps ih =>
      intro vs L s fr hs hfr hvs
      cases vs with
      | nil =>
          unfold Frame.bindAll
          exact .pure hs hfr
      | cons v vs =>
          rw [Frame.bindAll, Traced.ofRun_bind]
          refine .bind (Frame.bind_steady hs hfr x hvs.1) fun L₁ fr₁ s₁ hle₁ hs₁ hfr₁ => ?_
          exact ih hs₁ hfr₁ (hvs.2.mono hle₁)

theorem Frame.bindParams_steady (hs : s.Heeds L) (hfr : fr.Heeds body L) (ps : List LocalId)
    {vs : List Value} (hvs : Value.HeedList L vs) :
    Steady L (fun L' fr' => fr'.Heeds body L') (Traced.ofRun (fr.bindParams ps vs) s) := by
  unfold Frame.bindParams
  split
  · exact Frame.bindAll_steady ps hs hfr hvs
  · exact .of_fault rfl

/-- A local is overwritten only if an assignment to it stands in the body, so its cell is not
steady. -/
theorem Frame.write_steady (hs : s.Heeds L) (hfr : fr.Heeds body L) {x : LocalId}
    (hx : Stmt.Assigns body x) {v : Value} (hv : v.Heeds L) :
    Steady L (fun _ _ => True) (Traced.ofRun (fr.write x v) s) := by
  cases hl : fr.cells.lookup x with
  | none =>
      refine .of_fault (e := .unboundLocal x) (t := s) ?_
      simp only [Frame.write, Frame.cell, hl]
      rfl
  | some c =>
      obtain ⟨o, ho, hspares⟩ := hfr x c hl
      have hnone : o = none := by
        by_contra hsteady
        exact hspares hsteady hx
      rw [Frame.write, Frame.cell_of_lookup hl, pure_bind]
      exact .of_ok rfl (.refl L) (hs.writeCell (hnone ▸ ho) hv) trivial

/-- A closure gets to know the cells that the frame knows, under the same names. -/
theorem captureCells_steady (hs : s.Heeds L) (hfr : fr.Heeds body L) (cs : List LocalId) :
    Steady L (fun L' env => ∀ p ∈ env, L'.Spares body p.1 p.2) (Traced.ofRun (captureCells fr cs) s) := by
  induction cs generalizing L s with
  | nil => exact .pure hs (by simp)
  | cons x cs ih =>
      cases hl : fr.cells.lookup x with
      | none =>
          refine .of_fault (e := .unboundLocal x) (t := s) ?_
          simp only [captureCells, Frame.cell, hl]
          rfl
      | some c =>
          rw [captureCells, Frame.cell_of_lookup hl, pure_bind, Traced.ofRun_bind]
          refine .bind (ih hs hfr) fun L₁ env s₁ hle₁ hs₁ henv => .pure hs₁ ?_
          simp only [List.forall_mem_cons]
          exact ⟨(hfr x c hl).mono hle₁, henv⟩

end Locals

/-! ## Operations -/

section Operations

variable {L : Ledger} {s : Store}

/-- An operation that changes nothing, if it ends with a value. -/
theorem Steady.of_still {α : Type} {r : Run α} {Q : Ledger → α → Prop} (hs : s.Heeds L)
    (h : ∀ a t, r s = .ok a t → t = s ∧ Q L a) : Steady L Q (Traced.ofRun r s) := by
  cases hr : r s with
  | ok a t =>
      obtain ⟨rfl, hq⟩ := h a t hr
      exact .of_ok hr (.refl L) hs hq
  | fault e t => exact .of_fault hr
  | exhausted => exact .of_exhausted hr

theorem Value.Scalar.heeds {v : Value} (h : v.Scalar) : v.Heeds L := by
  cases v <;> trivial

theorem asInt_steady (hs : s.Heeds L) (v : Value) :
    Steady L (fun _ _ => True) (Traced.ofRun (asInt v) s) :=
  .of_still hs fun _ _ h => ⟨(asInt_ok h).1, trivial⟩

theorem asBool_steady (hs : s.Heeds L) (v : Value) :
    Steady L (fun _ _ => True) (Traced.ofRun (asBool v) s) :=
  .of_still hs fun _ _ h => ⟨(asBool_ok h).1, trivial⟩

theorem asSlice_steady (hs : s.Heeds L) (v : Value) :
    Steady L (fun _ _ => True) (Traced.ofRun (asSlice v) s) :=
  .of_still hs fun _ _ h => ⟨(asSlice_ok h).1, trivial⟩

theorem asCallable_steady (hs : s.Heeds L) {v : Value} (hv : v.Heeds L) :
    Steady L (fun L' c => c.Heeds L') (Traced.ofRun (asCallable v) s) :=
  .of_still hs fun c t h => by
    obtain ⟨ht, rfl⟩ := asCallable_ok h
    exact ⟨ht, hv⟩

theorem unary_steady (hs : s.Heeds L) (op : UnaryOp) (v : Value) :
    Steady L (fun L' w => w.Heeds L') (Traced.ofRun (unary op v) s) :=
  .of_still hs fun _ _ h => ⟨(unary_ok h).1, (unary_ok h).2.heeds⟩

theorem binary_steady (hs : s.Heeds L) (op : BinaryOp) (v w : Value) :
    Steady L (fun L' x => x.Heeds L') (Traced.ofRun (binary op v w) s) :=
  .of_still hs fun _ _ h => ⟨(binary_ok h).1, (binary_ok h).2.heeds⟩

theorem position_steady (hs : s.Heeds L) (i : Int64) (n : Nat) (b : Bounds) :
    Steady L (fun _ _ => True) (Traced.ofRun (position i n b) s) :=
  .of_still hs fun _ _ h => ⟨(position_ok h).1, trivial⟩

theorem sliceLength_steady (hs : s.Heeds L) (a : SliceAddr) :
    Steady L (fun _ _ => True) (Traced.ofRun (Run.sliceLength a) s) :=
  .of_ok rfl (.refl L) hs trivial

theorem readItem_steady (hs : s.Heeds L) (a : SliceAddr) (i : Nat) :
    Steady L (fun L' v => v.Heeds L') (Traced.ofRun (Run.readItem a i) s) := by
  refine .of_ok rfl (.refl L) hs ?_
  cases hsl : s.slices[a.index]? with
  | none => trivial
  | some sl =>
      cases hv : sl.items[i]? with
      | none => simp [hv, Value.Heeds]
      | some v =>
          simp only [Option.bind_some, hv, Option.getD_some]
          exact hs.slices hsl v (Array.mem_of_getElem? hv)

theorem writeItem_steady (hs : s.Heeds L) (a : SliceAddr) (i : Nat) {v : Value} (hv : v.Heeds L) :
    Steady L (fun _ _ => True) (Traced.ofRun (Run.writeItem a i v) s) :=
  .of_ok rfl (.refl L) (hs.writeItem hv) trivial

theorem newClosure_steady (hs : s.Heeds L) :
    Steady L (fun _ _ => True) (Traced.ofRun Run.newClosure s) :=
  .of_ok rfl (.refl L) (hs.congr rfl rfl) trivial

theorem newActivation_steady (hs : s.Heeds L) :
    Steady L (fun _ _ => True) (Traced.ofRun Run.newActivation s) :=
  .of_ok rfl (.refl L) (hs.congr rfl rfl) trivial

theorem newSlice_steady (hs : s.Heeds L) {vs : Array Value} (origin : Option Origin)
    (hvs : ∀ v ∈ vs, v.Heeds L) :
    Steady L (fun L' v => v.Heeds L') (Traced.ofRun (Run.newSlice vs origin) s) := by
  by_cases hfit : vs.size < Slice.capacity
  · exact .of_ok (dif_pos hfit) (.refl L) (hs.pushSlice ⟨vs, origin, hfit⟩ hvs) trivial
  · exact .of_exhausted (dif_neg hfit)

mutual

theorem zero_steady : ∀ (t : Ir.Ty) {L : Ledger} {s : Store}, s.Heeds L →
    Steady L (fun L' v => v.Heeds L') (Traced.ofRun (zero t) s)
  | .i64, _, _, hs | .bool, _, _, hs | .str, _, _, hs | .func _ _, _, _, hs | .unit, _, _, hs
  | .invalid, _, _, hs => .pure hs trivial
  | .slice _, _, _, hs => newSlice_steady hs none (by simp)
  | .tuple ts, _, _, hs => by
      rw [zero, Traced.ofRun_bind]
      exact .bind (zeros_steady ts hs) fun L₁ vs s₁ _ hs₁ hvs => .pure hs₁ hvs

theorem zeros_steady : ∀ (ts : List Ir.Ty) {L : Ledger} {s : Store}, s.Heeds L →
    Steady L (fun L' vs => Value.HeedList L' vs) (Traced.ofRun (zeros ts) s)
  | [], _, _, hs => .pure hs trivial
  | t :: ts, _, _, hs => by
      simp only [zeros, Traced.ofRun_bind]
      exact .bind (zero_steady t hs) fun L₁ v s₁ _ hs₁ hv =>
        .bind (zeros_steady ts hs₁) fun L₂ vs s₂ hle₂ hs₂ hvs => .pure hs₂ ⟨hv.mono hle₂, hvs⟩

end

theorem fill_steady (t : Ir.Ty) (n : Nat) {vs : Array Value} (hs : s.Heeds L)
    (hvs : ∀ v ∈ vs, v.Heeds L) :
    Steady L (fun L' ws => ∀ v ∈ ws, v.Heeds L') (Traced.ofRun (fill t n vs) s) := by
  induction n generalizing vs L s with
  | zero => exact .pure hs hvs
  | succ n ih =>
      rw [fill, Traced.ofRun_bind]
      refine .bind (zero_steady t hs) fun L₁ v s₁ hle₁ hs₁ hv => ih hs₁ fun w hw => ?_
      rcases Array.mem_push.1 hw with hw | rfl
      · exact (hvs w hw).mono hle₁
      · exact hv

theorem allocate_steady (hs : s.Heeds L) (t : Ir.Ty) (n : Int64) (origin : Origin) :
    Steady L (fun L' v => v.Heeds L') (Traced.ofRun (allocate t n origin) s) := by
  unfold allocate
  split
  · exact .of_fault rfl
  · rw [Traced.ofRun_bind]
    exact .bind (fill_steady t _ hs (by simp)) fun L₁ vs s₁ _ hs₁ hvs =>
      newSlice_steady hs₁ (some origin) hvs

theorem builtin_steady (hs : s.Heeds L) (b : Builtin) (vs : List Value) :
    Steady L (fun L' v => v.Heeds L') (Traced.ofRun (builtin b vs) s) := by
  cases hr : builtin b vs s with
  | ok w t =>
      obtain ⟨ht, hw⟩ := builtin_ok hr
      refine .of_ok hr (.refl L) ?_ hw.heeds
      rw [ht]
      exact hs.congr rfl rfl
  | fault e t => exact .of_fault hr
  | exhausted => exact .of_exhausted hr

mutual

/-- Values from outside have no closures. -/
theorem Datum.load_steady : ∀ (d : Datum) {L : Ledger} {s : Store}, s.Heeds L →
    Steady L (fun L' v => v.Heeds L') (Traced.ofRun d.load s)
  | .unit, _, _, hs | .int _, _, _, hs | .bool _, _, _, hs | .str _, _, _, hs
  | .function _, _, _, hs | .builtin _, _, _, hs => .pure hs trivial
  | .list ds, _, _, hs => by
      rw [Datum.load, Traced.ofRun_bind]
      refine .bind (Datum.loadList_steady ds hs) fun L₁ vs s₁ _ hs₁ hvs => ?_
      exact newSlice_steady hs₁ none fun v hv =>
        (Value.heedList_iff vs).1 hvs v (by simpa using hv)
  | .tuple ds, _, _, hs => by
      rw [Datum.load, Traced.ofRun_bind]
      exact .bind (Datum.loadList_steady ds hs) fun L₁ vs s₁ _ hs₁ hvs => .pure hs₁ hvs

theorem Datum.loadList_steady : ∀ (ds : List Datum) {L : Ledger} {s : Store}, s.Heeds L →
    Steady L (fun L' vs => Value.HeedList L' vs) (Traced.ofRun (Datum.loadList ds) s)
  | [], _, _, hs => .pure hs trivial
  | d :: ds, _, _, hs => by
      simp only [Datum.loadList, Traced.ofRun_bind]
      exact .bind (Datum.load_steady d hs) fun L₁ v s₁ _ hs₁ hv =>
        .bind (Datum.loadList_steady ds hs₁) fun L₂ vs s₂ hle₂ hs₂ hvs =>
          .pure hs₂ ⟨hv.mono hle₂, hvs⟩

end

end Operations

end Rivulet.Machine
