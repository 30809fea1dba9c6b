import Rivulet.Proofs.Machine.Frames

set_option autoImplicit false

/-! # Stores behind stores

A store that has been left behind by earlier calls does not go away when the next call begins: the
new cells and sequences get the addresses behind the old ones. `Store.graft s₀ s` is the store `s` as
it looks there. Its addresses, the identities of its closures and the numbers of its activations are
shifted by what there is in `s₀` (`Store.offset`), and its text follows that of `s₀`.

Here is what shifting does to values, frames and stores: every address that the store `s` knows is
found where it is expected, and every change of `s` is one of its graft. -/

namespace Rivulet.Machine

open Ir

/-! ## Shifted addresses -/

/-- How far addresses, identities and numbers are shifted. -/
structure Offset where
  cells : Nat
  slices : Nat
  closures : Nat
  activations : Nat

/-- The address of a cell, shifted. -/
def CellAddr.shift (o : Offset) (a : CellAddr) : CellAddr := ⟨o.cells + a.index⟩

/-- The address of a sequence, shifted. -/
def SliceAddr.shift (o : Offset) (a : SliceAddr) : SliceAddr := ⟨o.slices + a.index⟩

/-- Cells of locals, with their addresses shifted. -/
def shiftCells (o : Offset) (cells : List (LocalId × CellAddr)) : List (LocalId × CellAddr) :=
  cells.map fun p => (p.1, p.2.shift o)

/-- A callable, with the addresses in it shifted. -/
def Callable.shift (o : Offset) : Callable → Callable
  | .function f => .function f
  | .builtin b => .builtin b
  | .closure i ps b env => .closure (o.closures + i) ps b (shiftCells o env)

mutual

/-- A value, with the addresses in it shifted. -/
def Value.shift (o : Offset) : Value → Value
  | .unit => .unit
  | .int n => .int n
  | .bool b => .bool b
  | .str s => .str s
  | .slice a => .slice (a.shift o)
  | .func c => .func (c.shift o)
  | .tuple vs => .tuple (Value.shiftList o vs)
termination_by structural v => v

/-- Values, with the addresses in them shifted. -/
def Value.shiftList (o : Offset) : List Value → List Value
  | [] => []
  | v :: vs => v.shift o :: Value.shiftList o vs
termination_by structural vs => vs

end

/-- The end of a piece of code, with the addresses in it shifted. -/
def Flow.shift (o : Offset) : Flow → Flow
  | .next => .next
  | .break => .break
  | .return v => .return (v.shift o)

/-- A frame, with the addresses in it shifted. -/
def Frame.shift (o : Offset) (fr : Frame) : Frame :=
  ⟨o.activations + fr.activation, shiftCells o fr.cells⟩

/-- The origin of a sequence, with its activation shifted. -/
def Origin.shift (o : Offset) (origin : Origin) : Origin :=
  { origin with activation := o.activations + origin.activation }

/-- A sequence, with the addresses in it shifted. -/
def Slice.shift (o : Offset) (sl : Slice) : Slice where
  items := sl.items.map (Value.shift o)
  origin := sl.origin.map (Origin.shift o)
  fits := by
    rw [Array.size_map]
    exact sl.fits

section Shift

variable {o : Offset}

theorem Value.shiftList_eq (vs : List Value) : Value.shiftList o vs = vs.map (Value.shift o) := by
  induction vs with
  | nil => rfl
  | cons v vs ih => rw [Value.shiftList, ih, List.map_cons]

theorem Value.shift_returned (vs : List Value) :
    (returned vs).shift o = returned (vs.map (Value.shift o)) := by
  match vs with
  | [] => rfl
  | [v] => rfl
  | v :: w :: vs => exact congrArg Value.tuple (Value.shiftList_eq (v :: w :: vs))

theorem Flow.result_shift (flow : Flow) : (flow.shift o).result = flow.result.shift o := by
  cases flow <;> rfl

theorem lookup_shiftCells (cells : List (LocalId × CellAddr)) (x : LocalId) :
    (shiftCells o cells).lookup x = (cells.lookup x).map (CellAddr.shift o) := by
  induction cells with
  | nil => rfl
  | cons p cells ih =>
      change ((p.1, p.2.shift o) :: shiftCells o cells).lookup x = _
      rw [List.lookup_cons, List.lookup_cons, ih]
      by_cases h : (x == p.1) = true
      · rw [h]
        rfl
      · rw [Bool.eq_false_iff.2 h]

theorem setCell_shift (x : LocalId) (a : CellAddr) (cells : List (LocalId × CellAddr)) :
    Frame.setCell x (a.shift o) (shiftCells o cells) = shiftCells o (Frame.setCell x a cells) := by
  induction cells with
  | nil => rfl
  | cons p cells ih =>
      change Frame.setCell x (a.shift o) ((p.1, p.2.shift o) :: shiftCells o cells) = _
      unfold Frame.setCell
      by_cases h : p.1 = x
      · rw [if_pos h, if_pos h]
        rfl
      · rw [if_neg h, if_neg h, ih]
        rfl

theorem closureCells_shift (env : List (LocalId × CellAddr)) :
    closureCells (shiftCells o env) = shiftCells o (closureCells env) := by
  have key : ∀ cells : List (LocalId × CellAddr),
      (shiftCells o env).foldl (fun cells p => Frame.setCell p.1 p.2 cells) (shiftCells o cells)
        = shiftCells o (env.foldl (fun cells p => Frame.setCell p.1 p.2 cells) cells) := by
    induction env with
    | nil => exact fun _ => rfl
    | cons p env ih =>
        intro cells
        change (shiftCells o env).foldl _ (Frame.setCell p.1 (p.2.shift o) (shiftCells o cells)) = _
        rw [setCell_shift]
        exact ih _
  exact key []

/-- An entry behind others is modified. -/
theorem append_map_modify {α : Type} (xs ys : Array α) {f g h : α → α} (i : Nat)
    (hfg : ∀ y, f (g y) = h (f y)) :
    xs ++ (ys.modify i g).map f = (xs ++ ys.map f).modify (xs.size + i) h := by
  apply Array.ext_getElem?
  intro j
  -- entries of `xs` stay, and behind them the position is that in `ys`, shifted by the size of `xs`
  rw [Array.getElem?_modify]
  by_cases hj : j < xs.size
  · have hne : xs.size + i ≠ j := by omega
    rw [if_neg hne, Array.getElem?_append_left hj, Array.getElem?_append_left hj]
  · have hle : xs.size ≤ j := Nat.le_of_not_lt hj
    have hiff : xs.size + i = j ↔ i = j - xs.size := by omega
    rw [Array.getElem?_append_right hle, Array.getElem?_append_right hle, Array.getElem?_map,
      Array.getElem?_map, Array.getElem?_modify]
    by_cases hi : i = j - xs.size
    · rw [if_pos hi, if_pos (hiff.2 hi)]
      cases ys[j - xs.size]? with
      | none => rfl
      | some y => exact congrArg some (hfg y)
    · rw [if_neg hi, if_neg (mt hiff.1 hi)]

theorem Slice.shift_set (sl : Slice) (i : Nat) (v : Value) :
    (sl.set i v).shift o = (sl.shift o).set i (v.shift o) := by
  simp only [Slice.shift, Slice.set, Array.map_setIfInBounds]

end Shift

/-! ## Grafted stores -/

namespace Store

/-- What there is in a store, so that what is added comes behind it. -/
def offset (s : Store) : Offset := ⟨s.cells.size, s.slices.size, s.closures, s.activations⟩

/-- A store behind another one. -/
def graft (s₀ s : Store) : Store where
  cells := s₀.cells ++ s.cells.map (Value.shift s₀.offset)
  slices := s₀.slices ++ s.slices.map (Slice.shift s₀.offset)
  closures := s₀.closures + s.closures
  activations := s₀.activations + s.activations
  output := s₀.output ++ s.output

/-- Behind a store, the empty store is that store. -/
theorem graft_empty (s₀ : Store) : s₀.graft {} = s₀ := by
  simp [graft]

variable (s₀ s : Store)

theorem getElem?_cells_graft (c : CellAddr) :
    (s₀.graft s).cells[(c.shift s₀.offset).index]? =
      s.cells[c.index]?.map (Value.shift s₀.offset) := by
  have hle : s₀.cells.size ≤ (c.shift s₀.offset).index := Nat.le_add_right _ _
  have hsub : (c.shift s₀.offset).index - s₀.cells.size = c.index := Nat.add_sub_cancel_left _ _
  rw [graft, Array.getElem?_append_right hle, hsub, Array.getElem?_map]

theorem getElem?_slices_graft (a : SliceAddr) :
    (s₀.graft s).slices[(a.shift s₀.offset).index]? =
      s.slices[a.index]?.map (Slice.shift s₀.offset) := by
  have hle : s₀.slices.size ≤ (a.shift s₀.offset).index := Nat.le_add_right _ _
  have hsub : (a.shift s₀.offset).index - s₀.slices.size = a.index := Nat.add_sub_cancel_left _ _
  rw [graft, Array.getElem?_append_right hle, hsub, Array.getElem?_map]

theorem items_graft (a : SliceAddr) :
    (s₀.graft s).items (a.shift s₀.offset) = (s.items a).map (Value.shift s₀.offset) := by
  unfold items
  rw [getElem?_slices_graft]
  cases s.slices[a.index]? with
  | none => rfl
  | some sl => simp [Slice.shift]

theorem graft_pushCell (v : Value) :
    s₀.graft { s with cells := s.cells.push v } =
      { s₀.graft s with cells := (s₀.graft s).cells.push (v.shift s₀.offset) } := by
  simp [graft]

theorem graft_pushSlice (sl : Slice) :
    s₀.graft { s with slices := s.slices.push sl } =
      { s₀.graft s with slices := (s₀.graft s).slices.push (sl.shift s₀.offset) } := by
  simp [graft]

/-- A cell is overwritten in the graft where it is in the store. -/
theorem graft_writeCell (c : CellAddr) (v : Value) :
    s₀.graft { s with cells := s.cells.setIfInBounds c.index v } =
      { s₀.graft s with
        cells := (s₀.graft s).cells.setIfInBounds (c.shift s₀.offset).index (v.shift s₀.offset) } := by
  have hle : s₀.cells.size ≤ (c.shift s₀.offset).index := Nat.le_add_right _ _
  have hsub : (c.shift s₀.offset).index - s₀.cells.size = c.index := Nat.add_sub_cancel_left _ _
  simp only [graft, Array.map_setIfInBounds, Array.setIfInBounds_append_right hle, hsub]

/-- An element is overwritten in the graft where it is in the store. -/
theorem graft_writeItem (a : SliceAddr) (i : Nat) (v : Value) :
    s₀.graft { s with slices := s.slices.modify a.index fun sl => sl.set i v } =
      { s₀.graft s with
        slices := (s₀.graft s).slices.modify (a.shift s₀.offset).index fun sl =>
          sl.set i (v.shift s₀.offset) } := by
  have hslices := append_map_modify s₀.slices s.slices (f := Slice.shift s₀.offset)
    (g := fun sl => sl.set i v) (h := fun sl => sl.set i (v.shift s₀.offset)) a.index
    fun sl => sl.shift_set i v
  simp only [graft, hslices]
  rfl

end Store

end Rivulet.Machine
