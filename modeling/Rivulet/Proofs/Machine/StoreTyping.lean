import Rivulet.Proofs.Code.WellTyped
import Rivulet.Proofs.Machine.Frames

set_option autoImplicit false

/-! # Typed stores

The type of a value that holds addresses depends on the store. A `StoreTyping` fixes what the store
has to hold: a type for cells, an element type and a length for sequences. Not every address needs
one, because a store may hold things that nobody can reach. A store that keeps to a store typing *models* it
(`Store.Models`). Cells are overwritten with values of their type only, and a store typing only grows
while a program runs, so a value keeps its type.

A closure is typed by its code. What counts as code of the right type is a parameter (`CodeTyping`),
because closures are typed before and after maps are lowered.

`Safe` is the property that is proved of runs: no fault but those that a well-typed program may have,
and a store typing for the store at the end. It is closed under sequencing (`Safe.bind`), so that a
proof about a run follows the run step by step. -/

namespace Rivulet.Machine

open Ir

/-! ## Typings -/

/-- How code is typed: the functions there are, and the bodies that a closure may have, given the
table of its locals, its results and the locals that are live when it starts. -/
structure CodeTyping where
  signatures : Validate.Signatures
  body : Context → List Ir.Ty → List LocalId → List Stmt → Prop

/-- The types of cells, and the element types and lengths of sequences, by address. -/
structure StoreTyping where
  cells : Nat → Option Ir.Ty
  slices : Nat → Option (Ir.Ty × Nat)

namespace StoreTyping

/-- One store typing extends another. -/
structure Le (st st' : StoreTyping) : Prop where
  cells : ∀ {a t}, st.cells a = some t → st'.cells a = some t
  slices : ∀ {a t}, st.slices a = some t → st'.slices a = some t

theorem Le.refl (st : StoreTyping) : st.Le st := ⟨id, id⟩

theorem Le.trans {st st' st'' : StoreTyping} (h : st.Le st') (h' : st'.Le st'') : st.Le st'' :=
  ⟨fun ha => h'.cells (h.cells ha), fun ha => h'.slices (h.slices ha)⟩

/-- Give a cell a type. -/
def setCell (st : StoreTyping) (a : Nat) (t : Ir.Ty) : StoreTyping :=
  { st with cells := fun b => if b = a then some t else st.cells b }

/-- Give a sequence an element type and a length. -/
def setSlice (st : StoreTyping) (a : Nat) (t : Ir.Ty) (n : Nat) : StoreTyping :=
  { st with slices := fun b => if b = a then some (t, n) else st.slices b }

theorem le_setCell {st : StoreTyping} {a : Nat} {t : Ir.Ty} (h : st.cells a = none) :
    st.Le (st.setCell a t) := by
  refine ⟨fun {b u} hb => ?_, id⟩
  have hba : b ≠ a := by rintro rfl; simp [h] at hb
  simp [setCell, hba, hb]

theorem le_setSlice {st : StoreTyping} {a : Nat} {t : Ir.Ty} {n : Nat} (h : st.slices a = none) :
    st.Le (st.setSlice a t n) := by
  refine ⟨id, fun {b u} hb => ?_⟩
  have hba : b ≠ a := by rintro rfl; simp [h] at hb
  simp [setSlice, hba, hb]

end StoreTyping

/-! ## Types of values -/

/-- A callable has a type. `str` is the only builtin that is a value. -/
def Callable.HasTy (ct : CodeTyping) (st : StoreTyping) : Callable → Ir.Ty → Prop
  | .function f, t => (∃ ps rs, t = .func ps rs) ∧ ct.signatures.lookup f = some t
  | .builtin b, t => b = .str ∧ t = .func [.i64] [.str]
  | .closure _ ps b env, t =>
      ∃ ctx rs, t = .func (ps.map ctx.typeOf) rs ∧ ct.body ctx rs (ps ++ env.map Prod.fst) b ∧
        ∀ p ∈ env, st.cells p.2.index = some (ctx.typeOf p.1)

mutual

/-- A value has a type. -/
def Value.HasTy (ct : CodeTyping) (st : StoreTyping) : Value → Ir.Ty → Prop
  | .unit, t => t = .unit
  | .int _, t => t = .i64
  | .bool _, t => t = .bool
  | .str _, t => t = .str
  | .slice a, t => ∃ u n, t = .slice u ∧ st.slices a.index = some (u, n)
  | .func c, t => c.HasTy ct st t
  | .tuple vs, t => ∃ ts, t = .tuple ts ∧ Value.HasTys ct st vs ts
termination_by structural v => v

/-- Values have types, one by one. -/
def Value.HasTys (ct : CodeTyping) (st : StoreTyping) : List Value → List Ir.Ty → Prop
  | [], ts => ts = []
  | v :: vs, ts => ∃ t us, ts = t :: us ∧ v.HasTy ct st t ∧ Value.HasTys ct st vs us
termination_by structural vs => vs

end

variable {ct : CodeTyping} {st st' : StoreTyping}

theorem Callable.HasTy.mono (h : st.Le st') {c : Callable} {t : Ir.Ty} (hc : c.HasTy ct st t) :
    c.HasTy ct st' t := by
  cases c with
  | function f => exact hc
  | builtin b => exact hc
  | closure i ps b env =>
      obtain ⟨ctx, rs, ht, hb, henv⟩ := hc
      exact ⟨ctx, rs, ht, hb, fun p hp => h.cells (henv p hp)⟩

mutual

/-- A value keeps its type while the store typing grows. -/
theorem Value.HasTy.mono (h : st.Le st') :
    ∀ {v : Value} {t : Ir.Ty}, v.HasTy ct st t → v.HasTy ct st' t
  | .unit, _, hv | .int _, _, hv | .bool _, _, hv | .str _, _, hv => hv
  | .slice _, _, ⟨u, n, ht, ha⟩ => ⟨u, n, ht, h.slices ha⟩
  | .func _, _, hv => Callable.HasTy.mono h hv
  | .tuple _, _, ⟨ts, ht, hvs⟩ => ⟨ts, ht, Value.HasTys.mono h hvs⟩

theorem Value.HasTys.mono (h : st.Le st') :
    ∀ {vs : List Value} {ts : List Ir.Ty}, Value.HasTys ct st vs ts → Value.HasTys ct st' vs ts
  | [], _, hvs => hvs
  | _ :: _, _, ⟨t, us, hts, hv, hvs⟩ => ⟨t, us, hts, hv.mono h, Value.HasTys.mono h hvs⟩

end

/-! ### Values by their types -/

theorem Callable.HasTy.isFunc {c : Callable} {t : Ir.Ty} (h : c.HasTy ct st t) :
    ∃ ps rs, t = .func ps rs := by
  cases c with
  | function f => exact h.1
  | builtin b => exact ⟨_, _, h.2⟩
  | closure i ps b env =>
      obtain ⟨ctx, rs, ht, -⟩ := h
      exact ⟨_, rs, ht⟩

/-- Each of the simple types has values of one form only. -/
theorem Value.HasTy.canonical {v : Value} {t : Ir.Ty} (h : v.HasTy ct st t) :
    (t = .i64 → ∃ n, v = .int n) ∧ (t = .bool → ∃ b, v = .bool b) ∧
      (t = .str → ∃ s, v = .str s) := by
  cases v with
  | unit =>
      obtain rfl : t = .unit := h
      exact ⟨nofun, nofun, nofun⟩
  | int n =>
      obtain rfl : t = .i64 := h
      exact ⟨fun _ => ⟨n, rfl⟩, nofun, nofun⟩
  | bool b =>
      obtain rfl : t = .bool := h
      exact ⟨nofun, fun _ => ⟨b, rfl⟩, nofun⟩
  | str s =>
      obtain rfl : t = .str := h
      exact ⟨nofun, nofun, fun _ => ⟨s, rfl⟩⟩
  | slice a =>
      obtain ⟨_, _, rfl, -⟩ := h
      exact ⟨nofun, nofun, nofun⟩
  | func c =>
      obtain ⟨_, _, rfl⟩ := Callable.HasTy.isFunc h
      exact ⟨nofun, nofun, nofun⟩
  | tuple vs =>
      obtain ⟨_, rfl, -⟩ := h
      exact ⟨nofun, nofun, nofun⟩

theorem Value.HasTy.int {v : Value} (h : v.HasTy ct st .i64) : ∃ n, v = .int n :=
  h.canonical.1 rfl

theorem Value.HasTy.bool {v : Value} (h : v.HasTy ct st .bool) : ∃ b, v = .bool b :=
  h.canonical.2.1 rfl

theorem Value.HasTy.str {v : Value} (h : v.HasTy ct st .str) : ∃ s, v = .str s :=
  h.canonical.2.2 rfl

theorem Value.HasTy.slice {v : Value} {u : Ir.Ty} (h : v.HasTy ct st (.slice u)) :
    ∃ a n, v = .slice a ∧ st.slices a.index = some (u, n) := by
  cases v with
  | slice a =>
      obtain ⟨u', n, hu, ha⟩ := h
      cases hu
      exact ⟨a, n, rfl, ha⟩
  | func c => obtain ⟨_, _, h'⟩ := Callable.HasTy.isFunc h; cases h'
  | _ => simp [Value.HasTy] at h

theorem Value.HasTy.func {v : Value} {ps rs : List Ir.Ty} (h : v.HasTy ct st (.func ps rs)) :
    ∃ c, v = .func c ∧ c.HasTy ct st (.func ps rs) := by
  cases v with
  | func c => exact ⟨c, rfl, h⟩
  | _ => simp [Value.HasTy] at h

theorem Value.HasTys.length_eq {vs : List Value} {ts : List Ir.Ty} (h : Value.HasTys ct st vs ts) :
    vs.length = ts.length := by
  induction vs generalizing ts with
  | nil => rw [h]; rfl
  | cons v vs ih =>
      obtain ⟨t, us, rfl, -, hvs⟩ := h
      simp [ih hvs]

/-- Values whose types are all the same. -/
theorem Value.HasTys.of_forall_eq {vs : List Value} {ts : List Ir.Ty} {t : Ir.Ty}
    (h : Value.HasTys ct st vs ts) (ht : ∀ u ∈ ts, u = t) : ∀ v ∈ vs, v.HasTy ct st t := by
  induction vs generalizing ts with
  | nil => simp
  | cons v vs ih =>
      obtain ⟨u, us, rfl, hv, hvs⟩ := h
      simp only [List.mem_cons, forall_eq_or_imp] at ht ⊢
      refine ⟨?_, ih hvs ht.2⟩
      rw [← ht.1]
      exact hv

/-- What returned values stand for: one value of the type of the result list. -/
theorem Value.HasTys.returned {vs : List Value} {ts : List Ir.Ty} (h : Value.HasTys ct st vs ts) :
    (returned vs).HasTy ct st (.ofResults ts) := by
  match vs, h with
  | [], h => rw [h]; rfl
  | [v], ⟨t, us, hts, hv, hus⟩ => rw [hts, hus]; exact hv
  | v :: w :: vs, ⟨t, us, hts, hv, u, us', hus, hw, hvs⟩ =>
      subst hts hus
      exact ⟨_, rfl, t, _, rfl, hv, u, us', rfl, hw, hvs⟩

/-! ## Stores -/

/-- A store keeps to a store typing. -/
structure Store.Models (s : Store) (ct : CodeTyping) (st : StoreTyping) : Prop where
  cells : ∀ {a t}, st.cells a = some t → ∃ v, s.cells[a]? = some v ∧ v.HasTy ct st t
  slices : ∀ {a t n}, st.slices a = some (t, n) →
    ∃ sl, s.slices[a]? = some sl ∧ sl.items.size = n ∧ ∀ v ∈ sl.items, v.HasTy ct st t

namespace Store.Models

variable {s : Store}

theorem cell_free (h : s.Models ct st) : st.cells s.cells.size = none := by
  cases hc : st.cells s.cells.size with
  | none => rfl
  | some t =>
      obtain ⟨v, hv, -⟩ := h.cells hc
      simp at hv

theorem slice_free (h : s.Models ct st) : st.slices s.slices.size = none := by
  cases hc : st.slices s.slices.size with
  | none => rfl
  | some p =>
      obtain ⟨v, hv, -⟩ := h.slices hc
      simp at hv

/-- Only the cells and the sequences of a store matter. -/
theorem congr {s' : Store} (h : s.Models ct st) (hc : s'.cells = s.cells)
    (hs : s'.slices = s.slices) : s'.Models ct st :=
  ⟨fun ha => by rw [hc]; exact h.cells ha, fun ha => by rw [hs]; exact h.slices ha⟩

/-- A new cell gets the type of its value. -/
theorem pushCell (h : s.Models ct st) {v : Value} {t : Ir.Ty} (hv : v.HasTy ct st t) :
    Store.Models { s with cells := s.cells.push v } ct (st.setCell s.cells.size t) := by
  have hle : st.Le (st.setCell s.cells.size t) := StoreTyping.le_setCell h.cell_free
  refine ⟨fun {a u} ha => ?_, fun {a u n} ha => ?_⟩
  · by_cases haz : a = s.cells.size
    · subst haz
      simp only [StoreTyping.setCell, if_true, Option.some.injEq] at ha
      subst ha
      exact ⟨v, by simp, hv.mono hle⟩
    · simp only [StoreTyping.setCell, if_neg haz] at ha
      obtain ⟨w, hw, hwt⟩ := h.cells ha
      refine ⟨w, ?_, hwt.mono hle⟩
      have hlt : a < s.cells.size := (Array.getElem?_eq_some_iff.1 hw).1
      simp only [Array.getElem?_push, if_neg haz]
      exact hw
  · obtain ⟨sl, hsl, hn, hall⟩ := h.slices (show st.slices a = some (u, n) from ha)
    exact ⟨sl, hsl, hn, fun w hw => (hall w hw).mono hle⟩

/-- A new sequence gets the type of its elements. -/
theorem pushSlice (h : s.Models ct st) (sl : Slice) {t : Ir.Ty}
    (hv : ∀ v ∈ sl.items, v.HasTy ct st t) :
    Store.Models { s with slices := s.slices.push sl } ct
      (st.setSlice s.slices.size t sl.items.size) := by
  have hle : st.Le (st.setSlice s.slices.size t sl.items.size) :=
    StoreTyping.le_setSlice h.slice_free
  refine ⟨fun {a u} ha => ?_, fun {a u n} ha => ?_⟩
  · obtain ⟨w, hw, hwt⟩ := h.cells (show st.cells a = some u from ha)
    exact ⟨w, hw, hwt.mono hle⟩
  · by_cases haz : a = s.slices.size
    · subst haz
      simp only [StoreTyping.setSlice, if_true, Option.some.injEq, Prod.mk.injEq] at ha
      obtain ⟨rfl, rfl⟩ := ha
      exact ⟨sl, by simp, rfl, fun w hw => (hv w hw).mono hle⟩
    · simp only [StoreTyping.setSlice, if_neg haz] at ha
      obtain ⟨sl', hsl, hn, hall⟩ := h.slices ha
      refine ⟨sl', ?_, hn, fun w hw => (hall w hw).mono hle⟩
      simp only [Array.getElem?_push, if_neg haz]
      exact hsl

/-- A cell is overwritten with a value of its type. -/
theorem writeCell (h : s.Models ct st) {a : Nat} {v : Value} {t : Ir.Ty}
    (ha : st.cells a = some t) (hv : v.HasTy ct st t) :
    Store.Models { s with cells := s.cells.setIfInBounds a v } ct st := by
  refine ⟨fun {b u} hb => ?_, fun hb => h.slices hb⟩
  obtain ⟨w, hw, hwt⟩ := h.cells hb
  have hlt : b < s.cells.size := (Array.getElem?_eq_some_iff.1 hw).1
  by_cases hba : a = b
  · subst hba
    rw [ha, Option.some.injEq] at hb
    subst hb
    exact ⟨v, by simp [hlt], hv⟩
  · exact ⟨w, by simp only [Array.getElem?_setIfInBounds_ne hba]; exact hw, hwt⟩

end Store.Models

/-! ## Safe runs -/

/-- The faults that a well-typed program may have: they depend on the data. -/
def Fault.OfData : Fault → Prop
  | .divisionByZero | .indexOutOfBounds _ _ => True
  | _ => False

/-- A run ended without a fault that typing excludes. If it ended with a value, the store models a
larger store typing, which with the value satisfies `Q`. -/
def Safe {α : Type} (ct : CodeTyping) (st : StoreTyping) (Q : StoreTyping → α → Prop) :
    Outcome α → Prop
  | .ok a s => ∃ st', st.Le st' ∧ s.Models ct st' ∧ Q st' a
  | .fault e _ => e.OfData
  | .exhausted => True

namespace Safe

variable {α β : Type} {Q Q' : StoreTyping → α → Prop} {R : StoreTyping → β → Prop} {s : Store}

theorem ok {a : α} (hs : s.Models ct st) (h : Q st a) : Safe ct st Q (.ok a s) :=
  ⟨st, .refl st, hs, h⟩

/-- A run that goes on under a larger store typing. -/
theorem of_le {o : Outcome α} (h : st.Le st') (ho : Safe ct st' Q o) : Safe ct st Q o := by
  cases o with
  | ok a s =>
      obtain ⟨st'', hle, hs, hq⟩ := ho
      exact ⟨st'', h.trans hle, hs, hq⟩
  | fault e s => exact ho
  | exhausted => trivial

theorem weaken {o : Outcome α} (ho : Safe ct st Q o)
    (h : ∀ st' a, st.Le st' → Q st' a → Q' st' a) : Safe ct st Q' o := by
  cases o with
  | ok a s =>
      obtain ⟨st', hle, hs, hq⟩ := ho
      exact ⟨st', hle, hs, h st' a hle hq⟩
  | fault e s => exact ho
  | exhausted => trivial

/-- **Safe runs can be sequenced.** -/
theorem bind {r : Run α} {f : α → Run β} (hr : Safe ct st Q (r s))
    (hf : ∀ st' a s', st.Le st' → s'.Models ct st' → Q st' a → Safe ct st' R (f a s')) :
    Safe ct st R ((r >>= f) s) := by
  rw [Run.bind_apply]
  cases hrs : r s with
  | ok a s' =>
      rw [hrs] at hr
      obtain ⟨st', hle, hs', hq⟩ := hr
      exact (hf st' a s' hle hs' hq).of_le hle
  | fault e s' => rw [hrs] at hr; exact hr
  | exhausted => trivial

theorem pure (hs : s.Models ct st) {a : α} (h : Q st a) : Safe ct st Q ((pure a : Run α) s) :=
  ok hs h

end Safe

end Rivulet.Machine
