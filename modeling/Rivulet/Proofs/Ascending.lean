import Rivulet.Ascending
import Mathlib.Order.Defs.Unbundled
import Mathlib.Tactic

set_option autoImplicit false

/-! # Sets as ascending lists

Inserting into an ascending list adds one element and keeps the list ascending. So the ascending
list of a list has the same elements, and it is the only ascending list that has them
(`ofList_eq`). -/

namespace Rivulet.Ascending

variable {α : Type} [LT α] [DecidableLT α] [IsStrictTotalOrder α (· < ·)]

theorem mem_insert_iff {a b : α} (s : List α) : b ∈ insert a s ↔ b = a ∨ b ∈ s := by
  induction s with
  | nil => simp [insert]
  | cons c s ih =>
      unfold insert
      split
      · simp
      · rename_i hac
        split
        · rw [List.mem_cons, ih, List.mem_cons]
          tauto
        · -- neither is smaller, so they are the same
          rename_i hca
          have hceq : a = c := Std.Trichotomous.trichotomous a c hac hca
          subst hceq
          simp

/-- The ascending list of a list has the same elements. -/
theorem mem_ofList_iff {b : α} (as : List α) : b ∈ ofList as ↔ b ∈ as := by
  have key : ∀ (as s : List α), b ∈ as.foldl (fun s a => insert a s) s ↔ b ∈ as ∨ b ∈ s := by
    intro as
    induction as with
    | nil => simp
    | cons a as ih =>
        intro s
        rw [List.foldl_cons, ih, mem_insert_iff, List.mem_cons]
        tauto
  rw [ofList, key]
  simp

theorem pairwise_insert (a : α) {s : List α} (hs : s.Pairwise (· < ·)) :
    (insert a s).Pairwise (· < ·) := by
  induction s with
  | nil => simp [insert]
  | cons c s ih =>
      obtain ⟨hc, hs'⟩ := List.pairwise_cons.1 hs
      rw [insert]
      split
      · rename_i hac
        refine List.pairwise_cons.2 ⟨fun b hb => ?_, hs⟩
        rcases List.mem_cons.1 hb with rfl | hb
        · exact hac
        · exact IsTrans.trans a c b hac (hc b hb)
      · split
        · rename_i hca
          refine List.pairwise_cons.2 ⟨fun b hb => ?_, ih hs'⟩
          rcases (mem_insert_iff s).1 hb with rfl | hb
          · exact hca
          · exact hc b hb
        · exact hs

/-- The ascending list of a list ascends. -/
theorem pairwise_ofList (as : List α) : (ofList as).Pairwise (· < ·) := by
  have key : ∀ (as s : List α), s.Pairwise (· < ·) →
      (as.foldl (fun s a => insert a s) s).Pairwise (· < ·) := by
    intro as
    induction as with
    | nil => exact fun _ hs => hs
    | cons a as ih => exact fun s hs => ih _ (pairwise_insert a hs)
  exact key as [] .nil

/-- The ascending list of a list is the only ascending list with its elements. -/
theorem ofList_eq {as bs : List α} (hbs : bs.Pairwise (· < ·)) (h : ∀ a, a ∈ as ↔ a ∈ bs) :
    ofList as = bs :=
  (pairwise_ofList as).eq_of_mem_iff hbs fun a => (mem_ofList_iff as).trans (h a)

end Rivulet.Ascending
