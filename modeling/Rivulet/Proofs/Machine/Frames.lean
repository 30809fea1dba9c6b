import Rivulet.Machine.Session
import Mathlib.Tactic

set_option autoImplicit false

/-! # Frames as look-up tables

A frame is a list of locals with their cells, and everything that is proved about frames only asks
for the cell of a given local. The lemmas here say what each operation on frames does to the answer:
setting a cell overrides one local, the frame of a closure answers with the last of its captured
cells, and capturing gives the cells that are there. -/

namespace Rivulet.Machine

open Ir

variable {x y : LocalId} {a : CellAddr}

/-- Setting the cell of a local changes the answer for that local only. -/
@[simp] theorem Frame.lookup_setCell (x : LocalId) (a : CellAddr) (y : LocalId) :
    ∀ cells : List (LocalId × CellAddr),
      (Frame.setCell x a cells).lookup y = if y = x then some a else cells.lookup y
  | [] => by
      by_cases h : y = x
      · simp [Frame.setCell, h]
      · simp [Frame.setCell, List.lookup_cons, h, beq_eq_false_iff_ne.2 h]
  | (z, b) :: rest => by
      unfold Frame.setCell
      by_cases hz : z = x
      · subst hz
        by_cases h : y = z
        · simp [h]
        · simp [List.lookup_cons, h, beq_eq_false_iff_ne.2 h]
      · rw [if_neg hz]
        by_cases h : y = z
        · subst h
          simp [hz]
        · simp only [List.lookup_cons, beq_eq_false_iff_ne.2 h]
          exact Frame.lookup_setCell x a y rest

/-- The frame of a closure answers with the last captured cell of a local. -/
theorem lookup_closureCells (env : List (LocalId × CellAddr)) (x : LocalId) :
    (closureCells env).lookup x = env.reverse.lookup x := by
  have key : ∀ (env cells : List (LocalId × CellAddr)),
      (env.foldl (fun cells p => Frame.setCell p.1 p.2 cells) cells).lookup x
        = (env.reverse.lookup x).or (cells.lookup x) := by
    intro env
    induction env with
    | nil => intro cells; simp
    | cons p env ih =>
        intro cells
        obtain ⟨y, a⟩ := p
        rw [List.foldl_cons, ih, Frame.lookup_setCell, List.reverse_cons, List.lookup_append]
        by_cases h : x = y
        · cases env.reverse.lookup x <;> simp [h]
        · cases env.reverse.lookup x <;> simp [h, List.lookup_cons, beq_eq_false_iff_ne.2 h]
  have := key env []
  simpa [closureCells] using this

/-- What is found in the frame of a closure was captured, and what was captured is found. -/
theorem mem_of_lookup_closureCells {env : List (LocalId × CellAddr)}
    (h : (closureCells env).lookup x = some a) : (x, a) ∈ env := by
  rw [lookup_closureCells] at h
  obtain ⟨l₁, l₂, heq, -⟩ := List.lookup_eq_some_iff.1 h
  have hmem : (x, a) ∈ env.reverse := by rw [heq]; simp
  simpa using hmem

theorem exists_lookup_closureCells {env : List (LocalId × CellAddr)}
    (h : x ∈ env.map Prod.fst) : ∃ a, (closureCells env).lookup x = some a := by
  rw [lookup_closureCells]
  cases hl : env.reverse.lookup x with
  | some a => exact ⟨a, rfl⟩
  | none =>
      rw [List.lookup_eq_none_iff] at hl
      obtain ⟨p, hp, hx⟩ := List.mem_map.1 h
      have := hl p (by simpa using hp)
      simp [hx] at this

/-- The cell of a local that is bound. -/
theorem Frame.cell_of_lookup {fr : Frame} (h : fr.cells.lookup x = some a) :
    fr.cell x = pure a := by
  simp only [Frame.cell, h]

/-- The cells of captured locals that are all bound. -/
theorem captureCells_of_bound {fr : Frame} {cs : List LocalId}
    (h : ∀ x ∈ cs, ∃ a, fr.cells.lookup x = some a) :
    ∃ env, captureCells fr cs = pure env ∧ env.map Prod.fst = cs ∧
      ∀ p ∈ env, fr.cells.lookup p.1 = some p.2 := by
  induction cs with
  | nil => exact ⟨[], rfl, rfl, by simp⟩
  | cons x cs ih =>
      simp only [List.mem_cons, forall_eq_or_imp] at h
      obtain ⟨⟨a, ha⟩, hcs⟩ := h
      obtain ⟨env, henv, hfst, hall⟩ := ih hcs
      refine ⟨(x, a) :: env, ?_, by simp [hfst], ?_⟩
      · simp only [captureCells, Frame.cell_of_lookup ha, henv, pure_bind]
      · rintro p (_ | ⟨_, hp⟩)
        · exact ha
        · exact hall p hp

end Rivulet.Machine
