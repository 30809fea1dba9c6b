import Rivulet.Proofs.Lowering.Pairing

set_option autoImplicit false

/-! # Paired stores

Two stores are paired if what they hold at paired addresses is paired (`Store.Paired`). This module
has one lemma for each way in which the stores change while the two runs go side by side: the lowered
store grows or changes where nothing is paired, both get a new cell or sequence, both overwrite
paired cells, both print. -/

namespace Rivulet.Machine

open Ir

/-- What two stores hold at paired addresses is paired. -/
structure Store.Paired (sigs : Validate.Signatures) (p : Pairing) (s t : Store) : Prop where
  cells : ∀ {a b}, p.cells a = some b →
    ∃ v w, s.cells[a]? = some v ∧ t.cells[b]? = some w ∧ v.Paired sigs p w
  slices : ∀ {a b}, p.slices a = some b →
    ∃ x y, s.slices[a]? = some x ∧ t.slices[b]? = some y ∧
      PairedValues sigs p x.items.toList y.items.toList
  cells_inj : ∀ {a a' b}, p.cells a = some b → p.cells a' = some b → a = a'
  slices_inj : ∀ {a a' b}, p.slices a = some b → p.slices a' = some b → a = a'
  closures : s.closures = t.closures
  output : s.output = t.output
  /-- Sequences do not hold themselves, however deep. -/
  ranked : ∃ r : Nat → Nat, ∀ {a b}, p.slices a = some b → ∀ v ∈ s.items ⟨a⟩, v.Below r (r a)

/-- A run has taken the lowered store from `t` to `t'`, and what is paired from `p` to `q`. Nothing
that was there before and is not paired was changed or paired, and no sequence changed its length. -/
structure Advances (p : Pairing) (t : Store) (q : Pairing) (t' : Store) : Prop where
  le : p.Le q
  cells_size : t.cells.size ≤ t'.cells.size
  cell : ∀ b, b < t.cells.size → p.FreeCell b → t'.cells[b]? = t.cells[b]? ∧ q.FreeCell b
  slice : ∀ b, b < t.slices.size → p.FreeSlice b → t'.slices[b]? = t.slices[b]? ∧ q.FreeSlice b
  length : ∀ {b : Nat} {sl : Slice}, t.slices[b]? = some sl →
    ∃ sl' : Slice, t'.slices[b]? = some sl' ∧ sl'.items.size = sl.items.size

variable {sigs : Validate.Signatures} {p q r : Pairing} {s s' t t' t'' : Store}

namespace Advances

theorem refl (p : Pairing) (t : Store) : Advances p t p t :=
  ⟨.refl p, le_rfl, fun _ _ h => ⟨rfl, h⟩, fun _ _ h => ⟨rfl, h⟩, fun h => ⟨_, h, rfl⟩⟩

theorem slices_size (h : Advances p t q t') : t.slices.size ≤ t'.slices.size := by
  by_contra hlt
  have hin : t.slices.size - 1 < t.slices.size := by omega
  obtain ⟨sl', hsl, -⟩ := h.length (Array.getElem?_eq_getElem hin)
  have := (Array.getElem?_eq_some_iff.1 hsl).1
  omega

theorem trans (h : Advances p t q t') (h' : Advances q t' r t'') : Advances p t r t'' := by
  refine ⟨h.le.trans h'.le, h.cells_size.trans h'.cells_size, ?_, ?_, ?_⟩
  · intro b hb hfree
    obtain ⟨heq, hfree'⟩ := h.cell b hb hfree
    obtain ⟨heq', hfree''⟩ := h'.cell b (hb.trans_le h.cells_size) hfree'
    exact ⟨heq'.trans heq, hfree''⟩
  · intro b hb hfree
    obtain ⟨heq, hfree'⟩ := h.slice b hb hfree
    obtain ⟨heq', hfree''⟩ := h'.slice b (hb.trans_le h.slices_size) hfree'
    exact ⟨heq'.trans heq, hfree''⟩
  · intro b sl hsl
    obtain ⟨sl', hsl', hlen⟩ := h.length hsl
    obtain ⟨sl'', hsl'', hlen'⟩ := h'.length hsl'
    exact ⟨sl'', hsl'', hlen'.trans hlen⟩

/-- Only the cells and the sequences of a store matter. -/
theorem congr (h : Advances p t q t') (hc : t''.cells = t'.cells) (hs : t''.slices = t'.slices) :
    Advances p t q t'' := by
  refine ⟨h.le, ?_, ?_, ?_, ?_⟩
  · rw [hc]
    exact h.cells_size
  · rw [hc]
    exact h.cell
  · rw [hs]
    exact h.slice
  · rw [hs]
    exact h.length

/-- Overwriting a cell that was not there at the start. -/
theorem writeCell (h : Advances p t q t') {b : Nat} (hb : t.cells.size ≤ b) (w : Value) :
    Advances p t q { t' with cells := t'.cells.setIfInBounds b w } := by
  refine ⟨h.le, by simpa using h.cells_size, ?_, h.slice, h.length⟩
  intro b' hb' hfree
  obtain ⟨heq, hfree'⟩ := h.cell b' hb' hfree
  refine ⟨?_, hfree'⟩
  simp only [Array.getElem?_setIfInBounds_ne (show b ≠ b' by omega)]
  exact heq

/-- Overwriting an element of a sequence that was not there at the start. -/
theorem writeItem (h : Advances p t q t') {b : Nat} (hb : t.slices.size ≤ b) (i : Nat) (w : Value) :
    Advances p t q { t' with slices := t'.slices.modify b fun sl => sl.set i w } := by
  have hne : ∀ b', b' < t.slices.size → (t'.slices.modify b fun sl => sl.set i w)[b']? = t'.slices[b']? := by
    intro b' hb'
    rw [Array.getElem?_modify, if_neg (by omega)]
  refine ⟨h.le, h.cells_size, h.cell, ?_, ?_⟩
  · intro b' hb' hfree
    obtain ⟨heq, hfree'⟩ := h.slice b' hb' hfree
    exact ⟨(hne b' hb').trans heq, hfree'⟩
  · intro b' sl hsl
    obtain ⟨sl', hsl', hlen⟩ := h.length hsl
    exact ⟨sl', (hne b' (Array.getElem?_eq_some_iff.1 hsl).1).trans hsl', hlen⟩

/-- Pairing new cells of both stores. -/
theorem addCell (h : Advances p t q t') {a b : Nat} (ha : q.cells a = none) (hb : t.cells.size ≤ b) :
    Advances p t (q.addCell a b) t' := by
  refine ⟨h.le.trans (Pairing.le_addCell ha), h.cells_size, ?_, h.slice, h.length⟩
  intro b' hb' hfree
  obtain ⟨heq, hfree'⟩ := h.cell b' hb' hfree
  refine ⟨heq, fun a' ha' => ?_⟩
  simp only [Pairing.addCell] at ha'
  split at ha'
  · cases ha'
    omega
  · exact hfree' a' ha'

/-- Pairing new sequences of both stores. -/
theorem addSlice (h : Advances p t q t') {a b : Nat} (ha : q.slices a = none)
    (hb : t.slices.size ≤ b) : Advances p t (q.addSlice a b) t' := by
  refine ⟨h.le.trans (Pairing.le_addSlice ha), h.cells_size, h.cell, ?_, h.length⟩
  intro b' hb' hfree
  obtain ⟨heq, hfree'⟩ := h.slice b' hb' hfree
  refine ⟨heq, fun a' ha' => ?_⟩
  simp only [Pairing.addSlice] at ha'
  split at ha'
  · cases ha'
    omega
  · exact hfree' a' ha'

end Advances

/-! ## Growth of one store -/

/-- A store has only got new cells and sequences. -/
structure Store.Extends (t t' : Store) : Prop where
  cells : ∃ vs, t'.cells = t.cells ++ vs
  slices : ∃ sls, t'.slices = t.slices ++ sls
  closures : t'.closures = t.closures
  output : t'.output = t.output

namespace Store.Extends

theorem refl (t : Store) : t.Extends t := ⟨⟨#[], by simp⟩, ⟨#[], by simp⟩, rfl, rfl⟩

theorem trans (h : t.Extends t') (h' : t'.Extends t'') : t.Extends t'' := by
  obtain ⟨vs, hvs⟩ := h.cells
  obtain ⟨ws, hws⟩ := h'.cells
  obtain ⟨xs, hxs⟩ := h.slices
  obtain ⟨ys, hys⟩ := h'.slices
  refine ⟨⟨vs ++ ws, ?_⟩, ⟨xs ++ ys, ?_⟩, h'.closures.trans h.closures, h'.output.trans h.output⟩
  · rw [hws, hvs, Array.append_assoc]
  · rw [hys, hxs, Array.append_assoc]

theorem pushCell (t : Store) (w : Value) : t.Extends { t with cells := t.cells.push w } :=
  ⟨⟨#[w], by simp⟩, ⟨#[], by simp⟩, rfl, rfl⟩

theorem pushSlice (t : Store) (sl : Slice) : t.Extends { t with slices := t.slices.push sl } :=
  ⟨⟨#[], by simp⟩, ⟨#[sl], by simp⟩, rfl, rfl⟩

theorem getElem?_cells (h : t.Extends t') {b : Nat} (hb : b < t.cells.size) :
    t'.cells[b]? = t.cells[b]? := by
  obtain ⟨vs, hvs⟩ := h.cells
  rw [hvs, Array.getElem?_append_left hb]

theorem getElem?_slices (h : t.Extends t') {b : Nat} (hb : b < t.slices.size) :
    t'.slices[b]? = t.slices[b]? := by
  obtain ⟨sls, hsls⟩ := h.slices
  rw [hsls, Array.getElem?_append_left hb]

theorem advances (h : t.Extends t') (p : Pairing) : Advances p t p t' := by
  refine ⟨.refl p, ?_, ?_, ?_, ?_⟩
  · obtain ⟨vs, hvs⟩ := h.cells
    simp [hvs]
  · intro b hb hfree
    exact ⟨h.getElem?_cells hb, hfree⟩
  · intro b hb hfree
    exact ⟨h.getElem?_slices hb, hfree⟩
  · intro b sl hsl
    have hb := (Array.getElem?_eq_some_iff.1 hsl).1
    exact ⟨sl, (h.getElem?_slices hb).trans hsl, rfl⟩

end Store.Extends

/-! ## What keeps stores paired -/

namespace Store.Paired

/-- Paired cells are there. -/
theorem cell_lt (h : s.Paired sigs p t) {a b : Nat} (hab : p.cells a = some b) :
    a < s.cells.size ∧ b < t.cells.size := by
  obtain ⟨v, w, hv, hw, -⟩ := h.cells hab
  exact ⟨(Array.getElem?_eq_some_iff.1 hv).1, (Array.getElem?_eq_some_iff.1 hw).1⟩

/-- Paired sequences are there. -/
theorem slice_lt (h : s.Paired sigs p t) {a b : Nat} (hab : p.slices a = some b) :
    a < s.slices.size ∧ b < t.slices.size := by
  obtain ⟨x, y, hx, hy, -⟩ := h.slices hab
  exact ⟨(Array.getElem?_eq_some_iff.1 hx).1, (Array.getElem?_eq_some_iff.1 hy).1⟩

theorem cell_none (h : s.Paired sigs p t) : p.cells s.cells.size = none := by
  cases hc : p.cells s.cells.size with
  | none => rfl
  | some b => exact absurd (h.cell_lt hc).1 (lt_irrefl _)

theorem slice_none (h : s.Paired sigs p t) : p.slices s.slices.size = none := by
  cases hc : p.slices s.slices.size with
  | none => rfl
  | some b => exact absurd (h.slice_lt hc).1 (lt_irrefl _)

theorem freeCell (h : s.Paired sigs p t) {b : Nat} (hb : t.cells.size ≤ b) : p.FreeCell b :=
  fun _ ha => absurd (h.cell_lt ha).2 (by omega)

theorem freeSlice (h : s.Paired sigs p t) {b : Nat} (hb : t.slices.size ≤ b) : p.FreeSlice b :=
  fun _ ha => absurd (h.slice_lt ha).2 (by omega)

/-- The elements of paired sequences are paired. -/
theorem items (h : s.Paired sigs p t) {a b : SliceAddr} (hab : p.slices a.index = some b.index) :
    PairedValues sigs p (s.items a) (t.items b) := by
  obtain ⟨x, y, hx, hy, hxy⟩ := h.slices hab
  simp only [Store.items, hx, hy]
  exact hxy

/-- Only cells, sequences, the number of closures and the output matter. -/
theorem congr (h : s.Paired sigs p t) (hc : s'.cells = s.cells) (hs : s'.slices = s.slices)
    (hc' : t'.cells = t.cells) (hs' : t'.slices = t.slices) (hn : s'.closures = t'.closures)
    (ho : s'.output = t'.output) : s'.Paired sigs p t' := by
  have hitems : s'.items = s.items := by
    funext a
    simp only [Store.items, hs]
  refine ⟨?_, ?_, h.cells_inj, h.slices_inj, hn, ho, ?_⟩
  · rw [hc, hc']
    exact h.cells
  · rw [hs, hs']
    exact h.slices
  · rw [hitems]
    exact h.ranked

/-- The lowered store grows. -/
theorem extend (h : s.Paired sigs p t) (ht : t.Extends t') : s.Paired sigs p t' := by
  refine ⟨?_, ?_, h.cells_inj, h.slices_inj, h.closures.trans ht.closures.symm,
    h.output.trans ht.output.symm, h.ranked⟩
  · intro a b hab
    obtain ⟨v, w, hv, hw, hvw⟩ := h.cells hab
    exact ⟨v, w, hv, (ht.getElem?_cells (h.cell_lt hab).2).trans hw, hvw⟩
  · intro a b hab
    obtain ⟨x, y, hx, hy, hxy⟩ := h.slices hab
    exact ⟨x, y, hx, (ht.getElem?_slices (h.slice_lt hab).2).trans hy, hxy⟩

/-- A cell of the lowered store is overwritten that is not paired. -/
theorem writeFree (h : s.Paired sigs p t) {b : Nat} (hb : p.FreeCell b) (w : Value) :
    s.Paired sigs p { t with cells := t.cells.setIfInBounds b w } := by
  refine ⟨?_, h.slices, h.cells_inj, h.slices_inj, h.closures, h.output, h.ranked⟩
  intro a b' hab
  obtain ⟨v, w', hv, hw, hvw⟩ := h.cells hab
  have hne : b ≠ b' := fun heq => hb a (heq ▸ hab)
  refine ⟨v, w', hv, ?_, hvw⟩
  simp only [Array.getElem?_setIfInBounds_ne hne]
  exact hw

/-- An element of a sequence of the lowered store is overwritten that is not paired. -/
theorem writeItemFree (h : s.Paired sigs p t) {b : Nat} (hb : p.FreeSlice b) (i : Nat) (w : Value) :
    s.Paired sigs p { t with slices := t.slices.modify b fun sl => sl.set i w } := by
  refine ⟨h.cells, ?_, h.cells_inj, h.slices_inj, h.closures, h.output, h.ranked⟩
  intro a b' hab
  obtain ⟨x, y, hx, hy, hxy⟩ := h.slices hab
  have hne : b ≠ b' := fun heq => hb a (heq ▸ hab)
  refine ⟨x, y, hx, ?_, hxy⟩
  simp only [Array.getElem?_modify, if_neg hne]
  exact hy

/-- Both stores overwrite paired cells. -/
theorem writeCell (h : s.Paired sigs p t) {a b : Nat} (hab : p.cells a = some b) {v w : Value}
    (hvw : v.Paired sigs p w) :
    Store.Paired sigs p { s with cells := s.cells.setIfInBounds a v }
      { t with cells := t.cells.setIfInBounds b w } := by
  refine ⟨?_, h.slices, h.cells_inj, h.slices_inj, h.closures, h.output, h.ranked⟩
  intro a' b' hab'
  obtain ⟨ha, hb⟩ := h.cell_lt hab
  by_cases haa : a = a'
  · subst haa
    rw [hab, Option.some.injEq] at hab'
    subst hab'
    exact ⟨v, w, by simp [ha], by simp [hb], hvw⟩
  · have hbb : b ≠ b' := fun heq => haa (h.cells_inj hab (heq ▸ hab'))
    obtain ⟨v', w', hv', hw', hvw'⟩ := h.cells hab'
    refine ⟨v', w', ?_, ?_, hvw'⟩
    · simp only [Array.getElem?_setIfInBounds_ne haa]
      exact hv'
    · simp only [Array.getElem?_setIfInBounds_ne hbb]
      exact hw'

/-- Both stores get a new cell. -/
theorem pushCell (h : s.Paired sigs p t) {v w : Value} (hvw : v.Paired sigs p w) :
    Store.Paired sigs (p.addCell s.cells.size t.cells.size)
      { s with cells := s.cells.push v } { t with cells := t.cells.push w } := by
  have hle : p.Le (p.addCell s.cells.size t.cells.size) := Pairing.le_addCell h.cell_none
  refine ⟨?_, ?_, ?_, h.slices_inj, h.closures, h.output, h.ranked⟩
  · intro a b hab
    by_cases ha : a = s.cells.size
    · subst ha
      simp only [Pairing.addCell, if_true, Option.some.injEq] at hab
      subst hab
      exact ⟨v, w, by simp, by simp, hvw.mono hle⟩
    · simp only [Pairing.addCell, if_neg ha] at hab
      obtain ⟨v', w', hv', hw', hvw'⟩ := h.cells hab
      have hb : b ≠ t.cells.size := (h.cell_lt hab).2.ne
      refine ⟨v', w', ?_, ?_, hvw'.mono hle⟩
      · simp only [Array.getElem?_push, if_neg ha]
        exact hv'
      · simp only [Array.getElem?_push, if_neg hb]
        exact hw'
  · intro a b hab
    obtain ⟨x, y, hx, hy, hxy⟩ := h.slices (p := p) hab
    exact ⟨x, y, hx, hy, hxy.mono hle⟩
  · exact Pairing.eq_of_update h.cells_inj (h.freeCell le_rfl)

/-- A new sequence gets a rank above all ranks so far. -/
theorem ranked_push (h : s.Paired sigs p t) {x : Slice} (b : Nat) {ws : List Value}
    (hxy : PairedValues sigs p x.items.toList ws) :
    ∃ r : Nat → Nat, ∀ {a b' : Nat}, (p.addSlice s.slices.size b).slices a = some b' →
      ∀ v ∈ Store.items { s with slices := s.slices.push x } ⟨a⟩, v.Below r (r a) := by
  obtain ⟨r, hr⟩ := h.ranked
  let top := (Finset.range s.slices.size).sup r + 1
  have htop : ∀ a b', p.slices a = some b' → r a < top := by
    intro a b' hab
    have hmem : a ∈ Finset.range s.slices.size := Finset.mem_range.2 (h.slice_lt hab).1
    exact Nat.lt_succ_of_le (Finset.le_sup (f := r) hmem)
  refine ⟨fun a => if a = s.slices.size then top else r a, ?_⟩
  -- on what was paired before, the new rank is the old one
  have hold : ∀ k a b', p.slices a = some b' → r a < k →
      (if a = s.slices.size then top else r a) < k := by
    intro k a b' hab hlt
    rw [if_neg (h.slice_lt hab).1.ne]
    exact hlt
  intro a b' hab v hv
  by_cases ha : a = s.slices.size
  · subst ha
    have hv' : v ∈ x.items.toList := by simpa [Store.items] using hv
    obtain ⟨w, hvw⟩ := hxy.exists_paired hv'
    simp only [if_true]
    exact Value.Below.congr (hold _) hvw (hvw.below htop)
  · simp only [Pairing.addSlice, if_neg ha] at hab
    have hitems : Store.items { s with slices := s.slices.push x } ⟨a⟩ = s.items ⟨a⟩ := by
      simp only [Store.items, Array.getElem?_push, if_neg ha]
    rw [hitems] at hv
    obtain ⟨w, hvw⟩ := (h.items (a := ⟨a⟩) (b := ⟨b'⟩) hab).exists_paired hv
    simp only [if_neg ha]
    exact Value.Below.congr (hold _) hvw (hr hab v hv)

/-- A new sequence is paired with one of the lowered store that was not paired yet. -/
theorem pairSlice (h : s.Paired sigs p t) {x y : Slice} {b : Nat} (hy : t.slices[b]? = some y)
    (hb : p.FreeSlice b) (hxy : PairedValues sigs p x.items.toList y.items.toList) :
    Store.Paired sigs (p.addSlice s.slices.size b) { s with slices := s.slices.push x } t := by
  have hle : p.Le (p.addSlice s.slices.size b) := Pairing.le_addSlice h.slice_none
  refine ⟨?_, ?_, h.cells_inj, ?_, h.closures, h.output, ?_⟩
  · intro a b' hab
    obtain ⟨v, w, hv, hw, hvw⟩ := h.cells (p := p) hab
    exact ⟨v, w, hv, hw, hvw.mono hle⟩
  · intro a b' hab
    by_cases ha : a = s.slices.size
    · subst ha
      simp only [Pairing.addSlice, if_true, Option.some.injEq] at hab
      subst hab
      exact ⟨x, y, by simp, hy, hxy.mono hle⟩
    · simp only [Pairing.addSlice, if_neg ha] at hab
      obtain ⟨x', y', hx', hy', hxy'⟩ := h.slices hab
      refine ⟨x', y', ?_, hy', hxy'.mono hle⟩
      simp only [Array.getElem?_push, if_neg ha]
      exact hx'
  · exact Pairing.eq_of_update h.slices_inj hb
  · exact h.ranked_push b hxy

end Store.Paired

end Rivulet.Machine
