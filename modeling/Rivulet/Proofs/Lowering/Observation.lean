import Rivulet.Proofs.Lowering.PairedStores
import Rivulet.Proofs.Machine.Alike

set_option autoImplicit false

/-! # What a program can observe of paired values

The text of a value and equality of values look through sequences, following as many of them as there
are in the store. The two stores have different numbers of sequences, but both bounds are large
enough: the ranks of paired sequences can be taken below the number of pairs. So paired values have
the same text, and they are equal to each other on both sides or on neither. -/

namespace Rivulet.Machine

open Ir

variable {sigs : Validate.Signatures} {p : Pairing} {s t : Store}

/-- Ranks of paired sequences, below a bound that both stores respect. -/
theorem Store.Paired.exists_rank (h : s.Paired sigs p t) :
    ∃ (r : Nat → Nat) (k : Nat), k ≤ s.slices.size ∧ k ≤ t.slices.size ∧
      (∀ a b, p.slices a = some b → r a < k) ∧
        ∀ a b, p.slices a = some b → ∀ v ∈ s.items ⟨a⟩, v.Below r (r a) := by
  obtain ⟨r, hr⟩ := h.ranked
  -- the new rank of a sequence is the number of paired sequences of a lower old rank
  let paired := (Finset.range s.slices.size).filter fun a => (p.slices a).isSome
  let lower := fun a => paired.filter fun a' => r a' < r a
  have hmem : ∀ {a b}, p.slices a = some b → a ∈ paired := by
    intro a b hab
    simp only [paired, Finset.mem_filter, Finset.mem_range, hab, Option.isSome_some, and_true]
    exact (h.slice_lt hab).1
  refine ⟨fun a => (lower a).card, paired.card, ?_, ?_, ?_, ?_⟩
  · calc paired.card ≤ (Finset.range s.slices.size).card := Finset.card_filter_le _ _
      _ = s.slices.size := Finset.card_range _
  · rw [← Finset.card_range t.slices.size]
    refine Finset.card_le_card_of_injOn (fun a => (p.slices a).getD 0) ?_ ?_
    · intro a ha
      obtain ⟨b, hab⟩ := Option.isSome_iff_exists.1 (Finset.mem_filter.1 ha).2
      simp only [hab, Option.getD_some, Finset.coe_range, Set.mem_Iio]
      exact (h.slice_lt hab).2
    · intro a ha a' ha' heq
      obtain ⟨b, hab⟩ := Option.isSome_iff_exists.1 (Finset.mem_filter.1 ha).2
      obtain ⟨b', hab'⟩ := Option.isSome_iff_exists.1 (Finset.mem_filter.1 ha').2
      simp only [hab, hab', Option.getD_some] at heq
      subst heq
      exact h.slices_inj hab hab'
  · intro a b hab
    refine Finset.card_lt_card (Finset.filter_ssubset.2 ⟨a, hmem hab, ?_⟩)
    exact lt_irrefl _
  · intro a b hab v hv
    obtain ⟨w, hvw⟩ := (h.items (a := ⟨a⟩) (b := ⟨b⟩) hab).exists_paired hv
    refine Value.Below.congr ?_ hvw (hr hab v hv)
    intro a' b' hab' hlt
    refine Finset.card_lt_card ?_
    rw [Finset.ssubset_iff_of_subset ?_]
    · refine ⟨a', ?_, ?_⟩
      · exact Finset.mem_filter.2 ⟨hmem hab', hlt⟩
      · intro hin
        exact lt_irrefl _ (Finset.mem_filter.1 hin).2
    · intro c hc
      obtain ⟨hc, hlow⟩ := Finset.mem_filter.1 hc
      exact Finset.mem_filter.2 ⟨hc, hlow.trans hlt⟩

/-! ## Paired values look alike -/

/-- Paired sequences of ranks below `k`. -/
def Pairing.Below (p : Pairing) (r : Nat → Nat) (k : Nat) (a b : SliceAddr) : Prop :=
  p.slices a.index = some b.index ∧ r a.index < k

section Alike

variable {r : Nat → Nat} {k : Nat}

mutual

theorem Value.Paired.alike : ∀ {v w : Value}, v.Paired sigs p w → v.Below r k →
    v.Alike (p.Below r k) (Callable.Paired sigs p) w
  | .unit, _, h, _ | .int _, _, h, _ | .bool _, _, h, _ | .str _, _, h, _ => h
  | .slice _, _, ⟨b, hw, hab⟩, hlow => ⟨b, hw, hab, hlow⟩
  | .func _, _, h, _ => h
  | .tuple _, _, ⟨ws, hw, hvs⟩, hlow => ⟨ws, hw, Value.PairedList.alike hvs hlow⟩

theorem Value.PairedList.alike : ∀ {vs ws : List Value}, Value.PairedList sigs p vs ws →
    Value.BelowAll r k vs → Value.AlikeList (p.Below r k) (Callable.Paired sigs p) vs ws
  | [], _, h, _ => h
  | _ :: _, _, ⟨w, us, hws, hvw, hvs⟩, hlow =>
      ⟨w, us, hws, hvw.alike hlow.1, Value.PairedList.alike hvs hlow.2⟩

end

theorem PairedValues.alike {vs ws : List Value} (h : PairedValues sigs p vs ws)
    (hlow : ∀ v ∈ vs, v.Below r k) :
    List.Forall₂ (Value.Alike (p.Below r k) (Callable.Paired sigs p)) vs ws := by
  induction h with
  | nil => exact .nil
  | cons hvw _ ih =>
      rw [List.forall_mem_cons] at hlow
      exact .cons (hvw.alike hlow.1) (ih hlow.2)

/-- What paired sequences hold is alike, by lower ranks. -/
theorem Store.Paired.alike_items (h : s.Paired sigs p t)
    (hr : ∀ a b, p.slices a = some b → ∀ v ∈ s.items ⟨a⟩, v.Below r (r a)) {a b : SliceAddr}
    (hab : p.Below r k a b) :
    ∃ j < k, List.Forall₂ (Value.Alike (p.Below r j) (Callable.Paired sigs p)) (s.items a)
      (t.items b) :=
  ⟨r a.index, hab.2, (h.items hab.1).alike (hr _ _ hab.1)⟩

end Alike

theorem Callable.Paired.render_eq {c d : Callable} (h : c.Paired sigs p d) : c.render = d.render := by
  cases c <;> cases d <;> simp only [Callable.Paired] at h
  · rw [h]
  · rw [h]
  · rfl

theorem Callable.Paired.same_eq {c d c' d' : Callable} (h : c.Paired sigs p d)
    (h' : c'.Paired sigs p d') : c.same c' = d.same d' := by
  cases c <;> cases d <;> simp only [Callable.Paired] at h <;>
    cases c' <;> cases d' <;> simp only [Callable.Paired] at h' <;>
    simp [Callable.same, h, h']

/-- **Paired values have the same text.** -/
theorem Store.Paired.render_eq (h : s.Paired sigs p t) {v w : Value} (hvw : v.Paired sigs p w) :
    s.render v = t.render w := by
  obtain ⟨r, k, hs, ht, hk, hr⟩ := h.exists_rank
  have halike := hvw.alike (hvw.below hk)
  exact halike.renderUpTo_eq (h.alike_items hr) (fun hcd => hcd.render_eq) k (by omega) (by omega)

/-- **Paired values are equal on both sides or on neither.** -/
theorem Store.Paired.same_eq (h : s.Paired sigs p t) {v w v' w' : Value} (hvw : v.Paired sigs p w)
    (hvw' : v'.Paired sigs p w') : s.same v v' = t.same w w' := by
  obtain ⟨r, k, hs, ht, hk, hr⟩ := h.exists_rank
  have halike := hvw.alike (hvw.below hk)
  have halike' := hvw'.alike (hvw'.below hk)
  exact halike.sameUpTo_eq (h.alike_items hr) (fun hcd hcd' => hcd.same_eq hcd') k halike' (by omega)
    (by omega)

end Rivulet.Machine
