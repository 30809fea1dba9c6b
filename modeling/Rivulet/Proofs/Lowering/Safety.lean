import Rivulet.Proofs.Code.Generation
import Rivulet.Proofs.Lowering.Calls

set_option autoImplicit false

/-! # Lowered code is safe

Types are kept along a pairing, in both directions. A store of lowered code that keeps to a store
typing stands for a store of the code before lowering, in which every closure has got back a body
that it was lowered from (`Store.Models.exists_raised`). And a store that is paired with a typed one
keeps to the typing that comes with the pairing (`Store.Models.along`). So a call on lowered code is
safe because the call on the code before lowering is: types go back before the call, the two calls go
side by side, and the types at the end come forth again. -/

namespace Rivulet.Machine

open Ir

/-- How lowered code is typed: a body is lowered from one that is well typed. -/
def CodeTyping.lowered (sigs : Validate.Signatures) : CodeTyping where
  signatures := sigs
  body ctx rs live b' :=
    ∃ b, Stmt.WellTypedBody ⟨ctx, sigs⟩ rs live b ∧ ∃ ctx' rs', BodyLowers sigs ctx' rs' live b b'

variable {sigs : Validate.Signatures} {p q : Pairing} {s t : Store} {st st' : StoreTyping}

/-! ## Back to the code before lowering -/

/-- Everything that has a type is paired with itself. -/
def Pairing.ofTyping (st : StoreTyping) : Pairing where
  cells a := (st.cells a).map fun _ => a
  slices a := (st.slices a).map fun _ => a

theorem Pairing.ofTyping_cells {a b : Nat} (h : (Pairing.ofTyping st).cells a = some b) :
    b = a ∧ ∃ t, st.cells a = some t := by
  obtain ⟨t, ht, rfl⟩ := Option.map_eq_some_iff.1 h
  exact ⟨rfl, t, ht⟩

theorem Pairing.ofTyping_slices {a b : Nat} (h : (Pairing.ofTyping st).slices a = some b) :
    b = a ∧ ∃ t n, st.slices a = some (t, n) := by
  obtain ⟨⟨t, n⟩, ht, rfl⟩ := Option.map_eq_some_iff.1 h
  exact ⟨rfl, t, n, ht⟩

/-- A value of the code before lowering that a value of lowered code stands for, at a type. -/
def Value.RaisedAt (sigs : Validate.Signatures) (st : StoreTyping) (t : Ir.Ty) (v w : Value) : Prop :=
  v.Paired sigs (.ofTyping st) w ∧ v.HasTy (.source sigs) st t

theorem Callable.exists_raised {c : Callable} {t : Ir.Ty} (h : c.HasTy (.lowered sigs) st t) :
    ∃ d : Callable, d.Paired sigs (.ofTyping st) c ∧ d.HasTy (.source sigs) st t := by
  cases c with
  | function f => exact ⟨.function f, rfl, h⟩
  | builtin b => exact ⟨.builtin b, rfl, h⟩
  | closure i ps b' env =>
      obtain ⟨ctx, rs, ht, ⟨b, hb, ctx', rs', hlow⟩, henv⟩ := h
      refine ⟨.closure i ps b env, ⟨rfl, rfl, ⟨ctx', rs', hlow⟩, ?_⟩, ctx, rs, ht, hb, henv⟩
      refine List.forall₂_same.2 fun x hx => ⟨rfl, ?_⟩
      simp only [Pairing.ofTyping, henv x hx, Option.map_some]

mutual

/-- Every typed value of lowered code stands for one of the code before lowering. -/
theorem Value.exists_raised : ∀ {w : Value} {t : Ir.Ty}, w.HasTy (.lowered sigs) st t →
    ∃ v, Value.RaisedAt sigs st t v w
  | .unit, _, h => ⟨.unit, rfl, h⟩
  | .int n, _, h => ⟨.int n, rfl, h⟩
  | .bool b, _, h => ⟨.bool b, rfl, h⟩
  | .str x, _, h => ⟨.str x, rfl, h⟩
  | .slice a, _, ⟨u, n, ht, ha⟩ =>
      ⟨.slice a, ⟨a, rfl, by simp only [Pairing.ofTyping, ha, Option.map_some]⟩, u, n, ht, ha⟩
  | .func c, _, h => by
      obtain ⟨d, hd, hty⟩ := Callable.exists_raised h
      exact ⟨.func d, ⟨c, rfl, hd⟩, hty⟩
  | .tuple ws, _, ⟨ts, ht, hws⟩ => by
      obtain ⟨vs, hvs, htys⟩ := Value.exists_raisedList hws
      exact ⟨.tuple vs, ⟨ws, rfl, Value.pairedList_iff.2 hvs⟩, ts, ht, htys⟩

theorem Value.exists_raisedList : ∀ {ws : List Value} {ts : List Ir.Ty},
    Value.HasTys (.lowered sigs) st ws ts →
    ∃ vs, PairedValues sigs (.ofTyping st) vs ws ∧ Value.HasTys (.source sigs) st vs ts
  | [], _, h => ⟨[], .nil, h⟩
  | _ :: _, _, ⟨t, us, hts, hw, hws⟩ => by
      obtain ⟨v, hvw, hv⟩ := Value.exists_raised hw
      obtain ⟨vs, hvs, htys⟩ := Value.exists_raisedList hws
      exact ⟨v :: vs, .cons hvw hvs, t, us, hts, hv, htys⟩

end

/-- The elements of a sequence, one by one. -/
theorem exists_raisedItems {t : Ir.Ty} :
    ∀ {ws : List Value}, (∀ w ∈ ws, w.HasTy (.lowered sigs) st t) →
      ∃ vs, List.Forall₂ (Value.RaisedAt sigs st t) vs ws
  | [], _ => ⟨[], .nil⟩
  | w :: ws, h => by
      obtain ⟨v, hv⟩ := Value.exists_raised (h w (by simp))
      obtain ⟨vs, hvs⟩ := exists_raisedItems fun w' hw' => h w' (List.mem_cons_of_mem _ hw')
      exact ⟨v :: vs, .cons hv hvs⟩

/-! ### Ranks of typed sequences -/

/-- The size of the element type: a sequence of sequences has a larger one. -/
noncomputable def StoreTyping.rank (st : StoreTyping) (a : Nat) : Nat :=
  match st.slices a with
  | some (u, _) => sizeOf u
  | none => 0

mutual

theorem Value.HasTy.below {ct : CodeTyping} {k : Nat} : ∀ {v : Value} {t : Ir.Ty},
    v.HasTy ct st t → sizeOf t ≤ k → v.Below st.rank k
  | .unit, _, _, _ | .int _, _, _, _ | .bool _, _, _, _ | .str _, _, _, _ | .func _, _, _, _ => trivial
  | .slice a, _, ⟨u, n, ht, ha⟩, hk => by
      subst ht
      simp only [Ir.Ty.slice.sizeOf_spec] at hk
      simp only [Value.Below, StoreTyping.rank, ha]
      omega
  | .tuple vs, _, ⟨ts, ht, hvs⟩, hk => by
      subst ht
      simp only [Ir.Ty.tuple.sizeOf_spec] at hk
      exact Value.HasTys.below hvs (by omega)

theorem Value.HasTys.below {ct : CodeTyping} {k : Nat} : ∀ {vs : List Value} {ts : List Ir.Ty},
    Value.HasTys ct st vs ts → sizeOf ts ≤ k → Value.BelowAll st.rank k vs
  | [], _, _, _ => trivial
  | _ :: _, _, ⟨t, us, hts, hv, hvs⟩, hk => by
      subst hts
      simp only [List.cons.sizeOf_spec] at hk
      exact ⟨hv.below (by omega), Value.HasTys.below hvs (by omega)⟩

end

/-! ### Stores -/

/-- What has a type in the store `s` stands for what is in the same place of the store `t`. -/
structure Store.RaisedAt (sigs : Validate.Signatures) (st : StoreTyping) (s t : Store) : Prop where
  cells : ∀ {a ty}, st.cells a = some ty → ∃ v w, s.cells[a]? = some v ∧ t.cells[a]? = some w ∧
    Value.RaisedAt sigs st ty v w
  slices : ∀ {a u n}, st.slices a = some (u, n) → ∃ x y : Slice, s.slices[a]? = some x ∧
    t.slices[a]? = some y ∧ x.items.size = n ∧
      List.Forall₂ (Value.RaisedAt sigs st u) x.items.toList y.items.toList
  closures : s.closures = t.closures
  output : s.output = t.output

theorem Store.RaisedAt.paired (h : s.RaisedAt sigs st t) : s.Paired sigs (.ofTyping st) t where
  cells hab := by
    obtain ⟨rfl, ty, hty⟩ := Pairing.ofTyping_cells hab
    obtain ⟨v, w, hv, hw, hraised⟩ := h.cells hty
    exact ⟨v, w, hv, hw, hraised.1⟩
  slices hab := by
    obtain ⟨rfl, u, n, hty⟩ := Pairing.ofTyping_slices hab
    obtain ⟨x, y, hx, hy, -, hitems⟩ := h.slices hty
    exact ⟨x, y, hx, hy, hitems.imp fun _ _ hraised => hraised.1⟩
  cells_inj hab hab' := by rw [← (Pairing.ofTyping_cells hab).1, (Pairing.ofTyping_cells hab').1]
  slices_inj hab hab' := by rw [← (Pairing.ofTyping_slices hab).1, (Pairing.ofTyping_slices hab').1]
  closures := h.closures
  output := h.output
  ranked := by
    refine ⟨st.rank, fun {a b} hab v hv => ?_⟩
    obtain ⟨-, u, n, hty⟩ := Pairing.ofTyping_slices hab
    obtain ⟨x, y, hx, -, -, hitems⟩ := h.slices hty
    simp only [Store.items, hx] at hv
    obtain ⟨w, -, hraised⟩ := mem_of_forall₂_right hitems.flip hv
    refine hraised.2.below (le_of_eq ?_)
    simp only [StoreTyping.rank, hty]

theorem Store.RaisedAt.models (h : s.RaisedAt sigs st t) : s.Models (.source sigs) st where
  cells hty := by
    obtain ⟨v, w, hv, -, hraised⟩ := h.cells hty
    exact ⟨v, hv, hraised.2⟩
  slices hty := by
    obtain ⟨x, y, hx, -, hsize, hitems⟩ := h.slices hty
    refine ⟨x, hx, hsize, fun v hv => ?_⟩
    obtain ⟨w, -, hraised⟩ := mem_of_forall₂_right hitems.flip (Array.mem_toList_iff.2 hv)
    exact hraised.2

/-- A value for a cell; if the cell has no type, any value will do. -/
theorem Store.Models.exists_raisedCell (ht : t.Models (.lowered sigs) st) (a : Fin t.cells.size) :
    ∃ v, ∀ ty, st.cells a = some ty → Value.RaisedAt sigs st ty v t.cells[a] := by
  cases hty : st.cells a with
  | none => exact ⟨.unit, by simp⟩
  | some ty =>
      obtain ⟨w, hw, hwty⟩ := ht.cells hty
      obtain ⟨v, hv⟩ := Value.exists_raised hwty
      rw [Array.getElem?_eq_getElem a.isLt, Option.some.injEq] at hw
      refine ⟨v, fun ty' hty' => ?_⟩
      cases hty'
      exact hw ▸ hv

/-- A sequence for a sequence; if that has no type, any will do. -/
theorem Store.Models.exists_raisedSlice (ht : t.Models (.lowered sigs) st) (a : Fin t.slices.size) :
    ∃ x : Slice, ∀ u n, st.slices a = some (u, n) → x.items.size = n ∧
      List.Forall₂ (Value.RaisedAt sigs st u) x.items.toList t.slices[a].items.toList := by
  cases hty : st.slices a with
  | none => exact ⟨t.slices[a], by simp⟩
  | some un =>
      obtain ⟨u, n⟩ := un
      obtain ⟨y, hy, hsize, hitems⟩ := ht.slices hty
      obtain ⟨vs, hvs⟩ := exists_raisedItems fun w hw => hitems w (Array.mem_toList_iff.1 hw)
      have hlen : vs.length = y.items.size := hvs.length_eq
      rw [Array.getElem?_eq_getElem a.isLt, Option.some.injEq] at hy
      refine ⟨⟨vs.toArray, none, by simpa [hlen] using y.fits⟩, fun u' n' hty' => ?_⟩
      cases hty'
      exact ⟨by simpa [hlen] using hsize, hy ▸ hvs⟩

/-- **A typed store of lowered code stands for a typed store of the code before lowering.** -/
theorem Store.Models.exists_raised (ht : t.Models (.lowered sigs) st) :
    ∃ s : Store, s.Paired sigs (.ofTyping st) t ∧ s.Models (.source sigs) st := by
  choose cell hcell using ht.exists_raisedCell
  choose slice hslice using ht.exists_raisedSlice
  let s : Store := { t with cells := Array.ofFn cell, slices := Array.ofFn slice }
  have hs : s.RaisedAt sigs st t := by
    refine ⟨fun {a ty} hty => ?_, fun {a u n} hty => ?_, rfl, rfl⟩
    · obtain ⟨w, hw, -⟩ := ht.cells hty
      obtain ⟨hlt, rfl⟩ := Array.getElem?_eq_some_iff.1 hw
      exact ⟨cell ⟨a, hlt⟩, t.cells[a], by simp [s, hlt], hw, hcell ⟨a, hlt⟩ ty hty⟩
    · obtain ⟨y, hy, -⟩ := ht.slices hty
      obtain ⟨hlt, rfl⟩ := Array.getElem?_eq_some_iff.1 hy
      obtain ⟨hsize, hitems⟩ := hslice ⟨a, hlt⟩ u n hty
      exact ⟨slice ⟨a, hlt⟩, t.slices[a], by simp [s, hlt], hy, hsize, hitems⟩
  exact ⟨s, hs.paired, hs.models⟩

/-! ## Forth to lowered code -/

open Classical in
/-- The store typing of the second store that comes with a pairing. -/
noncomputable def StoreTyping.along (q : Pairing) (st : StoreTyping) : StoreTyping where
  cells b := if h : ∃ a, q.cells a = some b then st.cells h.choose else none
  slices b := if h : ∃ a, q.slices a = some b then st.slices h.choose else none

theorem StoreTyping.exists_of_along_cells {b : Nat} {ty : Ir.Ty}
    (h : (st.along q).cells b = some ty) : ∃ a, q.cells a = some b ∧ st.cells a = some ty := by
  simp only [StoreTyping.along] at h
  split at h
  · rename_i hex
    exact ⟨_, hex.choose_spec, h⟩
  · cases h

theorem StoreTyping.exists_of_along_slices {b n : Nat} {ty : Ir.Ty}
    (h : (st.along q).slices b = some (ty, n)) :
    ∃ a, q.slices a = some b ∧ st.slices a = some (ty, n) := by
  simp only [StoreTyping.along] at h
  split at h
  · rename_i hex
    exact ⟨_, hex.choose_spec, h⟩
  · cases h

section Along

variable (hs : s.Paired sigs q t)

include hs

theorem StoreTyping.along_cells {a b : Nat} (h : q.cells a = some b) :
    (st.along q).cells b = st.cells a := by
  have hex : ∃ a, q.cells a = some b := ⟨a, h⟩
  simp only [StoreTyping.along, dif_pos hex, hs.cells_inj hex.choose_spec h]

theorem StoreTyping.along_slices {a b : Nat} (h : q.slices a = some b) :
    (st.along q).slices b = st.slices a := by
  have hex : ∃ a, q.slices a = some b := ⟨a, h⟩
  simp only [StoreTyping.along, dif_pos hex, hs.slices_inj hex.choose_spec h]

theorem Callable.HasTy.along {c d : Callable} {ty : Ir.Ty} (hc : c.HasTy (.source sigs) st ty)
    (hcd : c.Paired sigs q d) : d.HasTy (.lowered sigs) (st.along q) ty := by
  cases c with
  | function f =>
      cases d with
      | function g =>
          obtain rfl : f = g := hcd
          exact hc
      | builtin _ | closure _ _ _ _ => exact hcd.elim
  | builtin b =>
      cases d with
      | builtin b' =>
          obtain rfl : b = b' := hcd
          exact hc
      | function _ | closure _ _ _ _ => exact hcd.elim
  | closure i ps b env =>
      cases d with
      | closure j qs b' env' =>
          obtain ⟨rfl, rfl, ⟨ctx', rs', hlow⟩, henv⟩ := hcd
          obtain ⟨ctx, rs, hty, hb, hcells⟩ := hc
          rw [henv.fst_eq] at hlow hb
          refine ⟨ctx, rs, hty, ⟨b, hb, ctx', rs', hlow⟩, fun y hy => ?_⟩
          obtain ⟨x, hx, hfst, hcell⟩ := mem_of_forall₂_right henv hy
          rw [StoreTyping.along_cells hs hcell, ← hfst]
          exact hcells x hx
      | function _ | builtin _ => exact hcd.elim

/-- A typing that has grown on one side has grown along the pairing too. -/
theorem StoreTyping.le_along (hle : st'.Le st) (hq : (Pairing.ofTyping st').Le q) :
    st'.Le (st.along q) := by
  refine ⟨fun {a ty} h => ?_, fun {a ty} h => ?_⟩
  · have hab : q.cells a = some a := hq.cells (by simp only [Pairing.ofTyping, h, Option.map_some])
    exact (StoreTyping.along_cells hs hab).trans (hle.cells h)
  · have hab : q.slices a = some a := hq.slices (by simp only [Pairing.ofTyping, h, Option.map_some])
    exact (StoreTyping.along_slices hs hab).trans (hle.slices h)

end Along

mutual

/-- A value keeps its type along a pairing. -/
theorem Value.HasTy.along (hs : s.Paired sigs q t) :
    ∀ {v w : Value} {ty : Ir.Ty}, v.HasTy (.source sigs) st ty →
    v.Paired sigs q w → w.HasTy (.lowered sigs) (st.along q) ty
  | .unit, _, _, hv, h | .int _, _, _, hv, h | .bool _, _, _, hv, h | .str _, _, _, hv, h => by
      subst h
      exact hv
  | .slice _, _, _, ⟨u, n, hty, ha⟩, ⟨b, hw, hab⟩ => by
      subst hw
      exact ⟨u, n, hty, (StoreTyping.along_slices hs hab).trans ha⟩
  | .func _, _, _, hv, ⟨d, hw, hcd⟩ => by
      subst hw
      exact Callable.HasTy.along hs hv hcd
  | .tuple _, _, _, ⟨ts, hty, hvs⟩, ⟨ws, hw, hpaired⟩ => by
      subst hw
      exact ⟨ts, hty, Value.HasTys.along hs hvs hpaired⟩

theorem Value.HasTys.along (hs : s.Paired sigs q t) : ∀ {vs ws : List Value} {ts : List Ir.Ty},
    Value.HasTys (.source sigs) st vs ts → Value.PairedList sigs q vs ws →
    Value.HasTys (.lowered sigs) (st.along q) ws ts
  | [], _, _, hvs, h => by
      subst h
      exact hvs
  | _ :: _, _, _, ⟨t, us, hts, hv, hvs⟩, ⟨w, ws, hw, hvw, hpaired⟩ => by
      subst hw
      exact ⟨t, us, hts, Value.HasTy.along hs hv hvw, Value.HasTys.along hs hvs hpaired⟩

end

/-- **What is paired with a typed store is typed.** -/
theorem Store.Models.along (hs : s.Paired sigs q t) (hm : s.Models (.source sigs) st) :
    t.Models (.lowered sigs) (st.along q) := by
  refine ⟨fun {b ty} h => ?_, fun {b ty n} h => ?_⟩
  · obtain ⟨a, hab, hty⟩ := StoreTyping.exists_of_along_cells h
    obtain ⟨v, w, hv, hw, hvw⟩ := hs.cells hab
    obtain ⟨v', hv', hvty⟩ := hm.cells hty
    rw [hv, Option.some.injEq] at hv'
    exact ⟨w, hw, Value.HasTy.along hs (hv' ▸ hvty) hvw⟩
  · obtain ⟨a, hab, hty⟩ := StoreTyping.exists_of_along_slices h
    obtain ⟨x, y, hx, hy, hitems⟩ := hs.slices hab
    obtain ⟨x', hx', hsize, hvty⟩ := hm.slices hty
    rw [hx, Option.some.injEq] at hx'
    subst hx'
    have hlen : x.items.size = y.items.size := hitems.length_eq
    refine ⟨y, hy, hlen ▸ hsize, fun w hw => ?_⟩
    obtain ⟨v, hv, hvw⟩ := mem_of_forall₂_right hitems (Array.mem_toList_iff.2 hw)
    exact Value.HasTy.along hs (hvty v (Array.mem_toList_iff.1 hv)) hvw

/-! ## Calls -/

/-- **Calls of a lowered module are safe.** -/
theorem callFunction_lowered_safe {md md' : Module} (hmd : md.WellTyped) (hlower : md.LowersTo md')
    (time : Nat) {name : String} {ps rs : List Ir.Ty} {ws : List Value}
    (ht : t.Models (.lowered (Validate.signatures md)) st)
    (hname : (Validate.signatures md).lookup name = some (.func ps rs))
    (hws : Value.HasTys (.lowered (Validate.signatures md)) st ws ps) :
    Safe (.lowered (Validate.signatures md)) st
      (fun st' w => w.HasTy (.lowered (Validate.signatures md)) st' (.ofResults rs))
      (callFunction (Code.ofModule md' .refuse) time name ws t) := by
  -- back to the code before lowering, through its call, and forth again along the pairing at the end
  obtain ⟨s, hst, hs⟩ := ht.exists_raised
  obtain ⟨vs, hvs, hvty⟩ := Value.exists_raisedList hws
  have hsafe := callFunction_safe hmd time hs hname hvty
  have hbeside := callFunction_beside hmd hlower time hst name hvs
  cases hrun : callFunction (Code.ofModule md .direct) time name vs s with
  | ok v s' =>
      rw [hrun] at hsafe hbeside
      obtain ⟨st', hle, hs', hv⟩ := hsafe
      obtain ⟨w, t', q, hrun', hadv, hst', hvw⟩ := hbeside
      rw [hrun']
      exact ⟨st'.along q, StoreTyping.le_along hst' hle hadv.le, hs'.along hst',
        Value.HasTy.along hst' hv hvw⟩
  | fault e s' =>
      rw [hrun] at hsafe hbeside
      obtain ⟨t', hrun', -⟩ := hbeside hsafe
      rw [hrun']
      exact hsafe
  | exhausted =>
      rw [hrun] at hbeside
      rw [show callFunction (Code.ofModule md' .refuse) time name ws t = .exhausted from hbeside]
      trivial

end Rivulet.Machine
