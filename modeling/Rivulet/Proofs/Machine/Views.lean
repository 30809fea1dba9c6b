import Rivulet.Proofs.Lowering.ElementLoops
import Rivulet.Proofs.Machine.Alike
import Rivulet.Proofs.Machine.Operations
import Rivulet.Proofs.Machine.Relocation

set_option autoImplicit false

/-! # What lowered code can see

Sequences that lowered code can see never contain themselves. The code overwrites elements in one place
only, in the loop that fills a new sequence, and while that loop runs, the sequence and the cell that
holds it are *hidden*: no value names them. When the loop is over, they are *revealed*.

A `View` says which cells can be seen, and of each sequence that can be seen the moment at which it was
first seen, on a clock that counts such moments. All that a sequence holds was seen before it. So the
moments are ranks, and as there are not more of them than sequences, following as many addresses as
there are sequences is enough to see all of a value: text and equality do not depend on what else is
in the store (`Store.Shows.render_graft`, `Store.Shows.same_graft`). -/

namespace Rivulet.Machine

open Ir

/-! ## Views -/

/-- What can be seen of a store. -/
structure View where
  cells : Nat → Prop
  /-- The moment at which a sequence was first seen. -/
  rank : Nat → Option Nat
  clock : Nat

namespace View

/-- A view grows. -/
structure Le (V V' : View) : Prop where
  cells : ∀ {c : Nat}, V.cells c → V'.cells c
  rank : ∀ {a r : Nat}, V.rank a = some r → V'.rank a = some r
  clock : V.clock ≤ V'.clock

theorem Le.refl (V : View) : V.Le V := ⟨id, id, Nat.le_refl _⟩

theorem Le.trans {V V' V'' : View} (h : V.Le V') (h' : V'.Le V'') : V.Le V'' :=
  ⟨fun hc => h'.cells (h.cells hc), fun ha => h'.rank (h.rank ha), h.clock.trans h'.clock⟩

/-- Nothing can be seen. -/
def empty : View := ⟨fun _ => False, fun _ => none, 0⟩

/-- A cell is seen. -/
def addCell (V : View) (c : Nat) : View := { V with cells := fun d => d = c ∨ V.cells d }

/-- A sequence is seen for the first time. -/
def addSlice (V : View) (a : Nat) : View where
  cells := V.cells
  rank := fun b => if b = a then some V.clock else V.rank b
  clock := V.clock + 1

theorem le_addCell (V : View) (c : Nat) : V.Le (V.addCell c) := ⟨.inr, id, Nat.le_refl _⟩

theorem le_addSlice {V : View} {a : Nat} (h : V.rank a = none) : V.Le (V.addSlice a) := by
  refine ⟨id, fun {b r} hb => ?_, Nat.le_succ _⟩
  have hne : b ≠ a := by
    rintro rfl
    rw [h] at hb
    cases hb
  exact (if_neg hne).trans hb

end View

/-! ## Values that can be seen -/

/-- A callable can be seen: its code is lowered code, and the cells in it can be seen. -/
def Callable.Shown (V : View) : Callable → Prop
  | .function _ | .builtin _ => True
  | .closure _ _ body env => (∃ A, Stmt.TameBlock A none body) ∧ ∀ p ∈ env, V.cells p.2.index

mutual

/-- A value could be seen before the moment `d`. -/
def Value.Shown (V : View) (d : Nat) : Value → Prop
  | .unit | .int _ | .bool _ | .str _ => True
  | .slice a => ∃ r, V.rank a.index = some r ∧ r < d
  | .func c => c.Shown V
  | .tuple vs => Value.ShownList V d vs
termination_by structural v => v

/-- Several values could be seen before the moment `d`. -/
def Value.ShownList (V : View) (d : Nat) : List Value → Prop
  | [] => True
  | v :: vs => v.Shown V d ∧ Value.ShownList V d vs
termination_by structural vs => vs

end

/-- A value can be seen. -/
def Value.Visible (V : View) (v : Value) : Prop := v.Shown V V.clock

section Values

variable {V V' : View} {d d' : Nat}

theorem Value.shownList_iff (vs : List Value) : Value.ShownList V d vs ↔ ∀ v ∈ vs, v.Shown V d := by
  induction vs with
  | nil => simp [Value.ShownList]
  | cons v vs ih => simp [Value.ShownList, ih]

theorem Value.Scalar.shown {v : Value} (h : v.Scalar) : v.Shown V d := by
  cases v <;> trivial

theorem Value.Scalar.shift_eq {v : Value} (h : v.Scalar) (o : Offset) : v.shift o = v := by
  cases v <;> first | rfl | cases h

mutual

theorem Value.Shown.mono (hle : V.Le V') (hd : d ≤ d') : ∀ {v : Value}, v.Shown V d → v.Shown V' d'
  | .unit, _ | .int _, _ | .bool _, _ | .str _, _ => trivial
  | .slice _, ⟨r, hr, hlt⟩ => ⟨r, hle.rank hr, Nat.lt_of_lt_of_le hlt hd⟩
  | .func (.function _), _ | .func (.builtin _), _ => trivial
  | .func (.closure _ _ _ _), h => ⟨h.1, fun p hp => hle.cells (h.2 p hp)⟩
  | .tuple vs, h => show Value.ShownList V' d' vs from Value.ShownList.mono hle hd h

theorem Value.ShownList.mono (hle : V.Le V') (hd : d ≤ d') :
    ∀ {vs : List Value}, Value.ShownList V d vs →
    Value.ShownList V' d' vs
  | [], _ => trivial
  | _ :: _, h => ⟨Value.Shown.mono hle hd h.1, Value.ShownList.mono hle hd h.2⟩

end

theorem Value.Visible.mono {v : Value} (h : v.Visible V) (hle : V.Le V') : v.Visible V' :=
  Value.Shown.mono hle hle.clock h

theorem Value.visible_tuple (vs : List Value) :
    (Value.tuple vs).Visible V ↔ ∀ v ∈ vs, v.Visible V :=
  Value.shownList_iff vs

theorem Value.visible_returned {vs : List Value} (h : ∀ v ∈ vs, v.Visible V) :
    (returned vs).Visible V := by
  match vs, h with
  | [], _ => trivial
  | [v], h => exact h v (by simp)
  | v :: w :: vs, h => exact (Value.visible_tuple (v :: w :: vs)).2 h

end Values

/-! ## Stores -/

/-- A store shows a view. What can be seen is there and holds what can be seen, a sequence what could
be seen before it. What is hidden holds no hidden sequences either. -/
structure Store.Shows (s : Store) (V : View) : Prop where
  cells : ∀ {c : Nat}, V.cells c → ∃ v, s.cells[c]? = some v ∧ v.Visible V
  slices : ∀ {a r : Nat}, V.rank a = some r →
    r < V.clock ∧ ∃ sl, s.slices[a]? = some sl ∧ ∀ v ∈ sl.items, v.Shown V r
  items : ∀ {a : Nat} {sl : Slice}, s.slices[a]? = some sl → ∀ v ∈ sl.items, v.Visible V
  clock : V.clock ≤ s.slices.size

/-- A store shows a later view than another one did: what was hidden has stayed hidden, and a hidden
cell holds what it held. The clock has not gained on the number of sequences. -/
structure Later (V : View) (s : Store) (V' : View) (t : Store) : Prop where
  le : V.Le V'
  cells : ∀ {c : Nat}, c < s.cells.size → ¬ V.cells c → ¬ V'.cells c ∧ t.cells[c]? = s.cells[c]?
  slices : ∀ {a : Nat}, a < s.slices.size → V.rank a = none → V'.rank a = none
  cells_size : s.cells.size ≤ t.cells.size
  slices_size : s.slices.size ≤ t.slices.size
  clock : V'.clock + s.slices.size ≤ V.clock + t.slices.size

theorem Later.refl (V : View) (s : Store) : Later V s V s :=
  ⟨.refl V, fun _ hc => ⟨hc, rfl⟩, fun _ => id, Nat.le_refl _, Nat.le_refl _, Nat.le_refl _⟩

theorem Later.trans {V V' V'' : View} {s t u : Store} (h : Later V s V' t) (h' : Later V' t V'' u) :
    Later V s V'' u := by
  refine ⟨h.le.trans h'.le, fun hlt hc => ?_, fun hlt ha => ?_, h.cells_size.trans h'.cells_size,
    h.slices_size.trans h'.slices_size, ?_⟩
  · obtain ⟨hc', heq⟩ := h.cells hlt hc
    obtain ⟨hc'', heq'⟩ := h'.cells (Nat.lt_of_lt_of_le hlt h.cells_size) hc'
    exact ⟨hc'', heq'.trans heq⟩
  · exact h'.slices (Nat.lt_of_lt_of_le hlt h.slices_size) (h.slices hlt ha)
  · have hfirst := h.clock
    have hsecond := h'.clock
    omega

/-- There is nothing to be seen in the empty store. -/
theorem Store.shows_empty : Store.Shows {} View.empty where
  cells := False.elim
  slices := nofun
  items := fun h => by simp at h
  clock := Nat.le_refl 0

namespace Store.Shows

variable {V : View} {s : Store}

theorem cell_lt (h : s.Shows V) {c : Nat} (hc : V.cells c) : c < s.cells.size := by
  obtain ⟨v, hv, -⟩ := h.cells hc
  exact (Array.getElem?_eq_some_iff.1 hv).1

theorem slice_lt (h : s.Shows V) {a r : Nat} (ha : V.rank a = some r) : a < s.slices.size := by
  obtain ⟨-, sl, hsl, -⟩ := h.slices ha
  exact (Array.getElem?_eq_some_iff.1 hsl).1

/-- A new sequence has not been seen. -/
theorem rank_size (h : s.Shows V) : V.rank s.slices.size = none := by
  cases hr : V.rank s.slices.size with
  | none => rfl
  | some r => exact absurd (h.slice_lt hr) (Nat.lt_irrefl _)

theorem not_cells_size (h : s.Shows V) : ¬ V.cells s.cells.size :=
  fun hc => absurd (h.cell_lt hc) (Nat.lt_irrefl _)

/-- Only the cells and the sequences matter. -/
theorem congr {t : Store} (h : s.Shows V) (hc : t.cells = s.cells) (hs : t.slices = s.slices) :
    t.Shows V ∧ Later V s V t := by
  refine ⟨⟨fun hv => ?_, fun ha => ?_, fun hsl => h.items (hs ▸ hsl), ?_⟩, .refl V, fun _ hv => ⟨hv, ?_⟩,
    fun _ => id, ?_, ?_, ?_⟩
  · rw [hc]
    exact h.cells hv
  · rw [hs]
    exact h.slices ha
  · rw [hs]
    exact h.clock
  · rw [hc]
  · rw [hc]
  · rw [hs]
  · rw [hs]

/-- A new cell that can be seen. -/
theorem pushCell (h : s.Shows V) {v : Value} (hv : v.Visible V) :
    Store.Shows { s with cells := s.cells.push v } (V.addCell s.cells.size) ∧
      Later V s (V.addCell s.cells.size) { s with cells := s.cells.push v } := by
  have hle := V.le_addCell s.cells.size
  refine ⟨⟨fun {c} hc => ?_, fun ha => ?_, fun hsl w hw => (h.items hsl w hw).mono hle, h.clock⟩, hle,
    fun {c} hlt hc => ⟨?_, ?_⟩, fun _ => id, ?_, Nat.le_refl _, Nat.le_refl _⟩
  · rcases hc with rfl | hc
    · exact ⟨v, Array.getElem?_push_size, hv.mono hle⟩
    · obtain ⟨w, hw, hvisible⟩ := h.cells hc
      refine ⟨w, ?_, hvisible.mono hle⟩
      rw [Array.getElem?_push, if_neg (Nat.ne_of_lt (h.cell_lt hc))]
      exact hw
  · obtain ⟨hr, sl, hsl, hitems⟩ := h.slices ha
    exact ⟨hr, sl, hsl, fun w hw => (hitems w hw).mono hle (Nat.le_refl _)⟩
  · rintro (rfl | hc')
    · exact Nat.lt_irrefl _ hlt
    · exact hc hc'
  · rw [Array.getElem?_push, if_neg (Nat.ne_of_lt hlt)]
  · rw [Array.size_push]
    exact Nat.le_succ _

/-- A new cell that is hidden. It may hold anything. -/
theorem pushHiddenCell (h : s.Shows V) (v : Value) :
    Store.Shows { s with cells := s.cells.push v } V ∧
      Later V s V { s with cells := s.cells.push v } := by
  refine ⟨⟨fun {c} hc => ?_, h.slices, h.items, h.clock⟩, .refl V, fun {c} hlt hc => ⟨hc, ?_⟩,
    fun _ => id, ?_, Nat.le_refl _, Nat.le_refl _⟩
  · obtain ⟨w, hw, hvisible⟩ := h.cells hc
    refine ⟨w, ?_, hvisible⟩
    rw [Array.getElem?_push, if_neg (Nat.ne_of_lt (h.cell_lt hc))]
    exact hw
  · rw [Array.getElem?_push, if_neg (Nat.ne_of_lt hlt)]
  · rw [Array.size_push]
    exact Nat.le_succ _

/-- A new sequence that can be seen. All that it holds was seen before. -/
theorem pushSlice (h : s.Shows V) (sl : Slice) (hsl : ∀ v ∈ sl.items, v.Visible V) :
    Store.Shows { s with slices := s.slices.push sl } (V.addSlice s.slices.size) ∧
      Later V s (V.addSlice s.slices.size) { s with slices := s.slices.push sl } := by
  have hle : V.Le (V.addSlice s.slices.size) := View.le_addSlice h.rank_size
  refine ⟨⟨fun {c} hc => ?_, fun {a r} ha => ?_, fun {a tl} htl w hw => ?_, ?_⟩, hle,
    fun _ hc => ⟨hc, rfl⟩, fun {a} hlt ha => ?_, Nat.le_refl _, ?_, ?_⟩
  · obtain ⟨w, hw, hvisible⟩ := h.cells hc
    exact ⟨w, hw, hvisible.mono hle⟩
  · by_cases hnew : a = s.slices.size
    · -- it is seen at the present moment, and all that it holds was seen before
      subst hnew
      have hr : r = V.clock := by simpa [View.addSlice] using ha.symm
      subst hr
      refine ⟨Nat.lt_succ_self _, sl, Array.getElem?_push_size, fun w hw => ?_⟩
      exact Value.Shown.mono hle (Nat.le_refl _) (hsl w hw)
    · obtain ⟨hr, tl, htl, hitems⟩ := h.slices ((if_neg hnew).symm.trans ha)
      refine ⟨Nat.lt_succ_of_lt hr, tl, ?_, fun w hw => (hitems w hw).mono hle (Nat.le_refl _)⟩
      rw [Array.getElem?_push, if_neg hnew]
      exact htl
  · rw [Array.getElem?_push] at htl
    split at htl
    · cases htl
      exact (hsl w hw).mono hle
    · exact (h.items htl w hw).mono hle
  · rw [Array.size_push]
    exact Nat.succ_le_succ h.clock
  · exact (if_neg (Nat.ne_of_lt hlt)).trans ha
  · rw [Array.size_push]
    exact Nat.le_succ _
  · rw [Array.size_push]
    show V.clock + 1 + s.slices.size ≤ V.clock + (s.slices.size + 1)
    omega

/-- A new sequence that is hidden. It gives the clock room for another moment. -/
theorem pushHiddenSlice (h : s.Shows V) (sl : Slice) (hsl : ∀ v ∈ sl.items, v.Visible V) :
    Store.Shows { s with slices := s.slices.push sl } V ∧
      Later V s V { s with slices := s.slices.push sl } := by
  have hsize : s.slices.size ≤ (s.slices.push sl).size := by
    rw [Array.size_push]
    exact Nat.le_succ _
  refine ⟨⟨h.cells, fun {a r} ha => ?_, fun {a tl} htl => ?_, h.clock.trans hsize⟩, .refl V,
    fun _ hc => ⟨hc, rfl⟩, fun _ => id, Nat.le_refl _, hsize, Nat.add_le_add_left hsize _⟩
  · obtain ⟨hr, tl, htl, hitems⟩ := h.slices ha
    refine ⟨hr, tl, ?_, hitems⟩
    rw [Array.getElem?_push, if_neg (Nat.ne_of_lt (h.slice_lt ha))]
    exact htl
  · rw [Array.getElem?_push] at htl
    split at htl
    · cases htl
      exact hsl
    · exact h.items htl

/-- A cell that can be seen is overwritten. -/
theorem writeCell (h : s.Shows V) {c : Nat} (hc : V.cells c) {v : Value} (hv : v.Visible V) :
    Store.Shows { s with cells := s.cells.setIfInBounds c v } V ∧
      Later V s V { s with cells := s.cells.setIfInBounds c v } := by
  have hsize : (s.cells.setIfInBounds c v).size = s.cells.size := Array.size_setIfInBounds
  refine ⟨⟨fun {d} hd => ?_, h.slices, h.items, h.clock⟩, .refl V, fun {d} _ hd => ⟨hd, ?_⟩,
    fun _ => id, Nat.le_of_eq hsize.symm, Nat.le_refl _, Nat.le_refl _⟩
  · by_cases hcd : c = d
    · subst hcd
      exact ⟨v, Array.getElem?_setIfInBounds_self_of_lt (h.cell_lt hc), hv⟩
    · obtain ⟨w, hw, hvisible⟩ := h.cells hd
      exact ⟨w, by rw [Array.getElem?_setIfInBounds_ne hcd, hw], hvisible⟩
  · have hcd : c ≠ d := by
      rintro rfl
      exact hd hc
    exact Array.getElem?_setIfInBounds_ne hcd

/-- An element of a hidden sequence is overwritten. -/
theorem writeItem (h : s.Shows V) {a : Nat} (ha : V.rank a = none) (i : Nat) {v : Value}
    (hv : v.Visible V) :
    Store.Shows { s with slices := s.slices.modify a fun sl => sl.set i v } V ∧
      Later V s V { s with slices := s.slices.modify a fun sl => sl.set i v } := by
  -- sequences that can be seen are not touched, so nothing asks when `v` was seen
  have hsize : (s.slices.modify a fun sl => sl.set i v).size = s.slices.size := Array.size_modify
  refine ⟨⟨h.cells, fun {b r} hb => ?_, fun {b tl} htl w hw => ?_, ?_⟩, .refl V,
    fun _ hc => ⟨hc, rfl⟩, fun _ => id, Nat.le_refl _, Nat.le_of_eq hsize.symm, ?_⟩
  · have hab : a ≠ b := by
      rintro rfl
      rw [ha] at hb
      cases hb
    obtain ⟨hr, tl, htl, hitems⟩ := h.slices hb
    refine ⟨hr, tl, ?_, hitems⟩
    rw [Array.getElem?_modify, if_neg hab]
    exact htl
  · rw [Array.getElem?_modify] at htl
    split at htl
    · obtain ⟨sl, hsl, rfl⟩ := Option.map_eq_some_iff.1 htl
      rcases Array.mem_or_eq_of_mem_setIfInBounds hw with hw | rfl
      · exact h.items hsl w hw
      · exact hv
    · exact h.items htl w hw
  · exact hsize ▸ h.clock
  · exact Nat.le_of_eq (by rw [hsize])

/-- A hidden sequence is revealed with the cell that holds it. -/
theorem reveal (h : s.Shows V) {c a : Nat} (hc : s.cells[c]? = some (.slice ⟨a⟩))
    (ha : V.rank a = none) (hlt : a < s.slices.size) (hclock : V.clock < s.slices.size) :
    s.Shows ((V.addSlice a).addCell c) := by
  have hle : V.Le ((V.addSlice a).addCell c) :=
    (View.le_addSlice ha).trans (View.le_addCell _ _)
  refine ⟨fun {d} hd => ?_, fun {b r} hb => ?_, fun htl w hw => (h.items htl w hw).mono hle, hclock⟩
  · rcases hd with rfl | hd
    · exact ⟨_, hc, V.clock, if_pos rfl, Nat.lt_succ_self _⟩
    · obtain ⟨w, hw, hvisible⟩ := h.cells hd
      exact ⟨w, hw, hvisible.mono hle⟩
  · by_cases hba : b = a
    · -- hidden sequences only hold what can be seen, so this was seen before the present moment
      subst hba
      have hr : r = V.clock := by simpa [View.addSlice, View.addCell] using hb.symm
      subst hr
      have hsl : s.slices[b]? = some s.slices[b] := Array.getElem?_eq_getElem hlt
      refine ⟨Nat.lt_succ_self _, _, hsl, fun w hw => ?_⟩
      exact Value.Shown.mono hle (Nat.le_refl _) (h.items hsl w hw)
    · obtain ⟨hr, tl, htl, hitems⟩ := h.slices ((if_neg hba).symm.trans hb)
      exact ⟨Nat.lt_succ_of_lt hr, tl, htl, fun w hw => (hitems w hw).mono hle (Nat.le_refl _)⟩

end Store.Shows

/-- What was hidden after an earlier moment may be revealed, if the clock has room. -/
theorem Later.reveal {V V' : View} {s t : Store} (h : Later V s V' t) {c a : Nat}
    (hc : s.cells.size ≤ c) (ha : s.slices.size ≤ a) (hrank : V'.rank a = none)
    (hclock : V'.clock + s.slices.size < V.clock + t.slices.size) :
    Later V s ((V'.addSlice a).addCell c) t := by
  have hle : V'.Le ((V'.addSlice a).addCell c) :=
    (View.le_addSlice hrank).trans (View.le_addCell _ _)
  refine ⟨h.le.trans hle, fun {d} hlt hd => ?_, fun {b} hlt hb => ?_, h.cells_size, h.slices_size, ?_⟩
  · obtain ⟨hd', heq⟩ := h.cells hlt hd
    refine ⟨?_, heq⟩
    rintro (rfl | hd'')
    · omega
    · exact hd' hd''
  · have hba : b ≠ a := by omega
    exact (if_neg hba).trans (h.slices hlt hb)
  · show V'.clock + 1 + s.slices.size ≤ V.clock + t.slices.size
    omega

/-! ## Text and equality -/

/-- A sequence that was seen before the moment `k`, and its shifted address. -/
def View.Shifts (V : View) (o : Offset) (k : Nat) (a b : SliceAddr) : Prop :=
  (∃ r, V.rank a.index = some r ∧ r < k) ∧ b = a.shift o

section Text

variable {V : View} {o : Offset} {k : Nat}

mutual

theorem Value.Shown.alike : ∀ {v : Value}, v.Shown V k →
    v.Alike (V.Shifts o k) (fun c d => d = c.shift o) (v.shift o)
  | .unit, _ | .int _, _ | .bool _, _ | .str _, _ => rfl
  | .slice a, h => ⟨a.shift o, rfl, h, rfl⟩
  | .func c, _ => ⟨c.shift o, rfl, rfl⟩
  | .tuple vs, h => ⟨Value.shiftList o vs, rfl, Value.ShownList.alike h⟩

theorem Value.ShownList.alike : ∀ {vs : List Value}, Value.ShownList V k vs →
    Value.AlikeList (V.Shifts o k) (fun c d => d = c.shift o) vs (Value.shiftList o vs)
  | [], _ => rfl
  | v :: vs, h => ⟨v.shift o, Value.shiftList o vs, rfl, h.1.alike, Value.ShownList.alike h.2⟩

end

variable {s : Store}

/-- What a sequence holds looks like what its graft holds, by earlier moments. -/
theorem Store.Shows.alike_items (h : s.Shows V) (s₀ : Store) {a b : SliceAddr}
    (hab : V.Shifts s₀.offset k a b) :
    ∃ j < k, List.Forall₂ (Value.Alike (V.Shifts s₀.offset j) fun c d => d = c.shift s₀.offset)
      (s.items a) ((s₀.graft s).items b) := by
  obtain ⟨⟨r, hr, hlt⟩, rfl⟩ := hab
  obtain ⟨-, sl, hsl, hitems⟩ := h.slices hr
  have heq : s.items a = sl.items.toList := by simp only [Store.items, hsl]
  have hshown : ∀ v ∈ s.items a, v.Shown V r := by
    rw [heq]
    exact fun v hv => hitems v (Array.mem_toList_iff.1 hv)
  refine ⟨r, hlt, ?_⟩
  rw [Store.items_graft, List.forall₂_map_right_iff, List.forall₂_same]
  exact fun v hv => (hshown v hv).alike

/-- **The text of a value does not depend on what else is in the store.** -/
theorem Store.Shows.render_graft (h : s.Shows V) (s₀ : Store) {v : Value} (hv : v.Visible V) :
    (s₀.graft s).render (v.shift s₀.offset) = s.render v := by
  have hsize : s.slices.size ≤ (s₀.graft s).slices.size := by simp [Store.graft]
  -- there are not more moments than sequences, so in both stores the text goes deep enough
  have hclock := h.clock
  have halike := Value.Shown.alike hv (o := s₀.offset)
  exact (halike.renderUpTo_eq (h.alike_items s₀) (fun {c d} hd => by subst hd; cases c <;> rfl) V.clock
    (by omega) (by omega)).symm

/-- **Equality of values does not depend on what else is in the store.** -/
theorem Store.Shows.same_graft (h : s.Shows V) (s₀ : Store) {v w : Value} (hv : v.Visible V)
    (hw : w.Visible V) :
    (s₀.graft s).same (v.shift s₀.offset) (w.shift s₀.offset) = s.same v w := by
  have hsize : s.slices.size ≤ (s₀.graft s).slices.size := by simp [Store.graft]
  have hclock := h.clock
  have halike := Value.Shown.alike hv (o := s₀.offset)
  have halike' := Value.Shown.alike hw (o := s₀.offset)
  have hsame : ∀ {c d c' d' : Callable}, d = c.shift s₀.offset → d' = c'.shift s₀.offset →
      c.same c' = d.same d' := by
    rintro c _ c' _ rfl rfl
    cases c <;> cases c' <;> simp [Callable.same, Callable.shift]
  exact (halike.sameUpTo_eq (h.alike_items s₀) hsame V.clock halike' (by omega) (by omega)).symm

end Text

end Rivulet.Machine
