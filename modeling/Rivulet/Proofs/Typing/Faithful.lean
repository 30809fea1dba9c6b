import Rivulet.Proofs.Typing.Proper

set_option autoImplicit false

/-! # Types that keep result lists

The results of a call become one type by `Ty.ofResults`, and if the call is the body of a closure,
`Ty.toResults` reads the results of the closure off that type. In general this loses results: `unit` as
the only result is read back as none at all, a tuple as the only result as its components, and a tuple
of one component as the component itself.

A type is *faithful* if nothing of that kind occurs anywhere in it. It may hold poison, unlike a proper
type, but only if the proposition `rejected` is true. So what is shown of faithful types can be used for
programs without faults, with `False` for `rejected`, and for programs in which something was rejected
before they were checked. -/

namespace Rivulet

namespace Ty

/-! ## The types in a type -/

mutual

/-- A type and all types that occur in it. -/
def parts : Ty → List Ty
  | .int => [.int]
  | .bool => [.bool]
  | .str => [.str]
  | .unit => [.unit]
  | .poison => [.poison]
  | .seq t => .seq t :: t.parts
  | .func ps rs => .func ps rs :: (partsList ps ++ partsList rs)
  | .tuple ts => .tuple ts :: partsList ts
termination_by structural t => t

/-- Several types and all types that occur in them. -/
def partsList : List Ty → List Ty
  | [] => []
  | t :: ts => t.parts ++ partsList ts
termination_by structural ts => ts

end

theorem mem_parts_self (t : Ty) : t ∈ t.parts := by
  cases t <;> simp [parts]

theorem mem_partsList {u : Ty} {ts : List Ty} : u ∈ partsList ts ↔ ∃ t ∈ ts, u ∈ t.parts := by
  induction ts with
  | nil => simp [partsList]
  | cons t ts ih => simp [partsList, ih]

/-! ## Faithful types -/

/-- What is asked of each type in a faithful one. -/
def Admitted (rejected : Prop) : Ty → Prop
  | .int | .bool | .str | .unit | .seq _ => True
  | .func _ rs => ∀ r ∈ rs, r.isSimple = true
  | .tuple ts => 2 ≤ ts.length ∧ ∀ t ∈ ts, t.isSimple = true
  | .poison => rejected

/-- In this type every function has simple results and every tuple has at least two components, which are
simple. Poison occurs in it only if something was `rejected`. -/
def Faithful (rejected : Prop) (t : Ty) : Prop := ∀ u ∈ t.parts, u.Admitted rejected

variable {rejected : Prop}

/-- A type that is its only part is faithful if it is admitted. -/
theorem faithful_iff_of_parts {t : Ty} (hparts : t.parts = [t]) :
    t.Faithful rejected ↔ t.Admitted rejected := by
  rw [Faithful, hparts, List.forall_mem_singleton]

@[simp] theorem faithful_int : Ty.int.Faithful rejected := (faithful_iff_of_parts rfl).2 trivial

@[simp] theorem faithful_bool : Ty.bool.Faithful rejected := (faithful_iff_of_parts rfl).2 trivial

@[simp] theorem faithful_str : Ty.str.Faithful rejected := (faithful_iff_of_parts rfl).2 trivial

@[simp] theorem faithful_unit : Ty.unit.Faithful rejected := (faithful_iff_of_parts rfl).2 trivial

@[simp] theorem faithful_poison : Ty.poison.Faithful rejected ↔ rejected :=
  faithful_iff_of_parts rfl

@[simp] theorem faithful_seq {t : Ty} : (Ty.seq t).Faithful rejected ↔ t.Faithful rejected := by
  rw [Faithful, parts, List.forall_mem_cons]
  exact and_iff_right trivial

theorem faithful_partsList {ts : List Ty} :
    (∀ u ∈ partsList ts, u.Admitted rejected) ↔ ∀ t ∈ ts, t.Faithful rejected := by
  constructor
  · exact fun h t ht u hu => h u (mem_partsList.2 ⟨t, ht, hu⟩)
  · intro h u hu
    obtain ⟨t, ht, htu⟩ := mem_partsList.1 hu
    exact h t ht u htu

theorem faithful_func {ps rs : List Ty} :
    (Ty.func ps rs).Faithful rejected ↔ (∀ p ∈ ps, p.Faithful rejected) ∧
      ∀ r ∈ rs, r.Faithful rejected ∧ r.isSimple = true := by
  rw [Faithful, parts, List.forall_mem_cons, List.forall_mem_append, faithful_partsList,
    faithful_partsList]
  constructor
  · rintro ⟨hsimple, hps, hrs⟩
    exact ⟨hps, fun r hr => ⟨hrs r hr, hsimple r hr⟩⟩
  · rintro ⟨hps, hrs⟩
    exact ⟨fun r hr => (hrs r hr).2, hps, fun r hr => (hrs r hr).1⟩

theorem faithful_tuple {ts : List Ty} :
    (Ty.tuple ts).Faithful rejected ↔ 2 ≤ ts.length ∧
      ∀ t ∈ ts, t.Faithful rejected ∧ t.isSimple = true := by
  rw [Faithful, parts, List.forall_mem_cons, faithful_partsList]
  constructor
  · rintro ⟨⟨hlen, hsimple⟩, hts⟩
    exact ⟨hlen, fun t ht => ⟨hts t ht, hsimple t ht⟩⟩
  · rintro ⟨hlen, hts⟩
    exact ⟨⟨hlen, fun t ht => (hts t ht).2⟩, fun t ht => (hts t ht).1⟩

mutual

/-- Proper types are faithful, whatever was rejected. -/
theorem faithful_of_proper : ∀ {t : Ty}, t.proper = true → t.Faithful rejected
  | .int, _ => faithful_int
  | .bool, _ => faithful_bool
  | .str, _ => faithful_str
  | .unit, _ => faithful_unit
  | .seq t, h => faithful_seq.2 (faithful_of_proper (t := t) h)
  | .func ps rs, h => by
      simp only [proper, Bool.and_eq_true] at h
      exact faithful_func.2 ⟨faithful_of_allProper h.1, faithful_of_allSimple h.2⟩
  | .tuple ts, h => by
      simp only [proper, Bool.and_eq_true, decide_eq_true_eq] at h
      exact faithful_tuple.2 ⟨h.1, faithful_of_allSimple h.2⟩
  | .poison, h => by simp [proper] at h

theorem faithful_of_allProper : ∀ {ts : List Ty}, allProper ts = true →
    ∀ t ∈ ts, t.Faithful rejected
  | [], _ => by simp
  | t :: ts, h => by
      simp only [allProper, Bool.and_eq_true] at h
      exact List.forall_mem_cons.2 ⟨faithful_of_proper h.1, faithful_of_allProper h.2⟩

theorem faithful_of_allSimple : ∀ {ts : List Ty}, allSimple ts = true →
    ∀ t ∈ ts, t.Faithful rejected ∧ t.isSimple = true
  | [], _ => by simp
  | t :: ts, h => by
      simp only [allSimple, Bool.and_eq_true] at h
      exact List.forall_mem_cons.2
        ⟨⟨faithful_of_proper h.1.1, h.1.2⟩, faithful_of_allSimple h.2⟩

end

mutual

/-- If poison occurs in a faithful type, something was rejected. -/
theorem rejected_of_hasPoison : ∀ {t : Ty}, t.Faithful rejected → hasPoison t = true → rejected
  | .poison, h, _ => faithful_poison.1 h
  | .seq t, h, hp => rejected_of_hasPoison (faithful_seq.1 h) hp
  | .func ps rs, h, hp => by
      obtain ⟨hps, hrs⟩ := faithful_func.1 h
      rcases (Bool.or_eq_true _ _).mp hp with hp | hp
      · exact rejected_of_anyPoison hps hp
      · exact rejected_of_anyPoison (fun r hr => (hrs r hr).1) hp
  | .tuple ts, h, hp => rejected_of_anyPoison (fun t ht => ((faithful_tuple.1 h).2 t ht).1) hp
  | .int, _, hp | .bool, _, hp | .str, _, hp | .unit, _, hp => by simp [hasPoison] at hp

theorem rejected_of_anyPoison : ∀ {ts : List Ty}, (∀ t ∈ ts, t.Faithful rejected) →
    anyPoison ts = true → rejected
  | [], _, hp => by simp [anyPoison] at hp
  | t :: ts, h, hp => by
      obtain ⟨ht, hts⟩ := List.forall_mem_cons.1 h
      rcases (Bool.or_eq_true _ _).mp hp with hp | hp
      · exact rejected_of_hasPoison ht hp
      · exact rejected_of_anyPoison hts hp

end

/-! ## Result lists -/

/-- **Simple results are read back as they were.** -/
theorem toResults_ofResults {rs : List Ty} (h : ∀ r ∈ rs, r.isSimple = true) :
    (ofResults rs).toResults = rs := by
  match rs, h with
  | [], _ => rfl
  | [t], h =>
      have ht := h t (by simp)
      cases t with
      | unit => simp [isSimple] at ht
      | tuple ts => simp [isSimple] at ht
      | _ => rfl
  | _ :: _ :: _, _ => rfl

theorem faithful_ofResults {rs : List Ty}
    (h : ∀ r ∈ rs, r.Faithful rejected ∧ r.isSimple = true) : (ofResults rs).Faithful rejected := by
  match rs, h with
  | [], _ => exact faithful_unit
  | [t], h => exact (h t (by simp)).1
  | t :: u :: rs, h => exact faithful_tuple.2 ⟨by simp, h⟩

theorem faithful_toResults {t : Ty} (h : t.Faithful rejected) :
    ∀ r ∈ t.toResults, r.Faithful rejected ∧ r.isSimple = true := by
  cases t with
  | unit => simp [toResults]
  | tuple ts => exact (faithful_tuple.1 h).2
  | _ =>
      intro r hr
      obtain rfl := List.mem_singleton.1 hr
      exact ⟨h, rfl⟩

theorem faithful_seqOf {t : Ty} (h : t.Faithful rejected) : (seqOf t).Faithful rejected := by
  unfold seqOf
  split
  · rename_i hp
    rw [← hp]
    exact h
  · exact faithful_seq.2 h

theorem faithful_element {t u : Ty} (h : t.Faithful rejected) (hu : t.element? = some u) :
    u.Faithful rejected := by
  obtain rfl := eq_seq_of_element? hu
  exact faithful_seq.1 h

end Ty

/-! ## Operands -/

namespace Typing

open Ty (faithful_poison faithful_func faithful_element)

variable {rejected : Prop}

theorem MapVerdict.faithful {l r t : Ty} (h : MapVerdict l r (.ok t)) (hl : l.Faithful rejected)
    (hr : r.Faithful rejected) : t.Faithful rejected := by
  cases h with
  | @unknown e p u he hp hpoison =>
      -- the comparison was skipped, so poison occurs in an operand
      obtain rfl := Ty.eq_func_of_callable? hp
      refine faithful_poison.2 ?_
      rcases hpoison with hpoison | hpoison
      · exact Ty.rejected_of_hasPoison ((faithful_func.1 hr).1 p (by simp)) hpoison
      · exact Ty.rejected_of_hasPoison (faithful_element hl he) hpoison
  | @accepted e u he hp _ =>
      obtain rfl := Ty.eq_func_of_callable? hp
      exact Ty.faithful_seqOf ((faithful_func.1 hr).2 u (by simp)).1

/-- The result of an accepted operator on faithful operands is faithful. -/
theorem faithful_of_checkBinary {rule : OperandRule} {l r t : Ty} (hl : l.Faithful rejected)
    (hr : r.Faithful rejected) (h : checkBinary rule l r = .ok t) : t.Faithful rejected := by
  have hverdict := checkBinary_verdict rule l r
  rw [h] at hverdict
  cases hverdict with
  | poison hpoison =>
      refine faithful_poison.2 ?_
      rcases hpoison with rfl | rfl
      · exact faithful_poison.1 hl
      · exact faithful_poison.1 hr
  | map _ _ _ hmap => exact hmap.faithful hl hr
  | unknown _ hpoison =>
      refine faithful_poison.2 ?_
      rcases hpoison with hpoison | hpoison
      · exact Ty.rejected_of_hasPoison hl hpoison
      · exact Ty.rejected_of_hasPoison hr hpoison
  | accepted _ _ ht => exact Ty.faithful_of_proper (homogeneous?_proper ht)

end Typing

end Rivulet
