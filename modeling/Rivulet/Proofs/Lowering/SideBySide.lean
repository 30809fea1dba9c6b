import Rivulet.Proofs.Lowering.Observation
import Rivulet.Proofs.Machine.Operations
import Rivulet.Proofs.Machine.StoreTyping

set_option autoImplicit false

/-! # Two runs side by side

`Beside` is the property that is proved of a direct run and the lowered run that stands for it: both
end in the same way, with the same fault at the same output, or with paired values in paired stores.
The only exception is a fault that typing excludes. Such a fault of the direct run excuses everything,
because well-typed code does not have it; so nothing here needs types.

The relation is closed under sequencing, and every operation of the machine respects it. -/

namespace Rivulet.Machine

open Ir

/-- A lowered run goes side by side with a direct run, from stores paired by `p`, of which `t` is the
lowered one. If they end with values, these satisfy `P`, with the pairing and the lowered store at
the end. -/
def Beside {α β : Type} (sigs : Validate.Signatures) (p : Pairing) (t : Store)
    (P : Pairing → Store → α → β → Prop) : Outcome α → Outcome β → Prop
  | .ok a s', o => ∃ b t' q, o = .ok b t' ∧ Advances p t q t' ∧ s'.Paired sigs q t' ∧ P q t' a b
  | .fault e s', o => e.OfData → ∃ t', o = .fault e t' ∧ s'.output = t'.output
  | .exhausted, o => o = .exhausted

variable {sigs : Validate.Signatures} {p q : Pairing} {s s' t t' : Store}

namespace Beside

variable {α β γ δ : Type} {P P' : Pairing → Store → α → β → Prop} {R : Pairing → Store → γ → δ → Prop}

theorem ok {a : α} {b : β} (hs : s.Paired sigs p t) (h : P p t a b) :
    Beside sigs p t P (.ok a s) (.ok b t) :=
  ⟨b, t, p, rfl, .refl p t, hs, h⟩

theorem pure {a : α} {b : β} (hs : s.Paired sigs p t) (h : P p t a b) :
    Beside sigs p t P ((pure a : Run α) s) ((pure b : Run β) t) :=
  ok hs h

/-- A value of the wrong kind on the direct side excuses everything. -/
theorem clash {c : Clash} {o : Outcome β} : Beside sigs p t P (.fault (.type c) s : Outcome α) o :=
  fun h => h.elim

/-- The lowered run may have gone ahead. -/
theorem ahead {o : Outcome α} {o' : Outcome β} (h : Advances p t q t')
    (ho : Beside sigs q t' P o o') : Beside sigs p t P o o' := by
  cases o with
  | ok a s =>
      obtain ⟨b, t'', r, hb, hadv, hs, hp⟩ := ho
      exact ⟨b, t'', r, hb, h.trans hadv, hs, hp⟩
  | fault e s => exact ho
  | exhausted => exact ho

theorem weaken {o : Outcome α} {o' : Outcome β} (ho : Beside sigs p t P o o')
    (h : ∀ q t' a b, Advances p t q t' → P q t' a b → P' q t' a b) : Beside sigs p t P' o o' := by
  cases o with
  | ok a s =>
      obtain ⟨b, t', q, hb, hadv, hs, hp⟩ := ho
      exact ⟨b, t', q, hb, hadv, hs, h q t' a b hadv hp⟩
  | fault e s => exact ho
  | exhausted => exact ho

/-- What is known of the value of the direct run. -/
theorem with_direct {o : Outcome α} {o' : Outcome β} (ho : Beside sigs p t P o o') :
    Beside sigs p t (fun q t' a b => P q t' a b ∧ ∃ s', o = .ok a s') o o' := by
  cases o with
  | ok a s =>
      obtain ⟨b, t', q, hb, hadv, hs, hp⟩ := ho
      exact ⟨b, t', q, hb, hadv, hs, hp, s, rfl⟩
  | fault e s => exact ho
  | exhausted => exact ho

/-- Sequencing, seen from an earlier store. -/
theorem bind_from {p₀ : Pairing} {t₀ t₁ : Store} {r : Run α} {f : α → Run γ} {r' : Run β}
    {f' : β → Run δ} (hr : Beside sigs p t P (r s) (r' t₁))
    (hf : ∀ q s' t' a b, Advances p t q t' → s'.Paired sigs q t' → P q t' a b →
      Beside sigs p₀ t₀ R (f a s') (f' b t')) :
    Beside sigs p₀ t₀ R ((r >>= f) s) ((r' >>= f') t₁) := by
  rw [Run.bind_apply, Run.bind_apply]
  cases hrs : r s with
  | ok a s' =>
      rw [hrs] at hr
      obtain ⟨b, t', q, hb, hadv, hs, hp⟩ := hr
      rw [hb]
      exact hf q s' t' a b hadv hs hp
  | fault e s' =>
      rw [hrs] at hr
      intro he
      obtain ⟨t', ht', hout⟩ := hr he
      rw [ht']
      exact ⟨t', rfl, hout⟩
  | exhausted =>
      rw [hrs] at hr
      rw [show r' t₁ = .exhausted from hr]
      rfl

/-- **Runs side by side can be sequenced.** -/
theorem bind {r : Run α} {f : α → Run γ} {r' : Run β} {f' : β → Run δ}
    (hr : Beside sigs p t P (r s) (r' t))
    (hf : ∀ q s' t' a b, Advances p t q t' → s'.Paired sigs q t' → P q t' a b →
      Beside sigs q t' R (f a s') (f' b t')) :
    Beside sigs p t R ((r >>= f) s) ((r' >>= f') t) :=
  hr.bind_from fun q s' t' a b hadv hs hp => (hf q s' t' a b hadv hs hp).ahead hadv

/-- A last step of the lowered run that has no effect can be left out. If it can fail at all, then
only with a fault that typing excludes. -/
theorem drop_last {γ : Type} {o : Outcome α} {r : Run γ} {f : γ → Run β}
    (ho : Beside sigs p t P o ((r >>= f) t))
    (hf : ∀ c t', (∃ b, f c t' = .ok b t') ∨ ∃ e, ¬ e.OfData ∧ f c t' = .fault e t') :
    Beside sigs p t (fun q t' a c => ∃ b, f c t' = .ok b t' ∧ P q t' a b) o (r t) := by
  rw [Run.bind_apply] at ho
  -- by what the shorter run does: the last step is only taken if it ends with a value
  cases hr : r t with
  | fault e t₁ =>
      rw [hr] at ho
      cases o with
      | ok a s₁ => obtain ⟨b, t', q, heq, -⟩ := ho; cases heq
      | fault e s₁ =>
          intro he
          obtain ⟨t', heq, hout⟩ := ho he
          cases heq
          exact ⟨_, rfl, hout⟩
      | exhausted => cases ho
  | exhausted =>
      rw [hr] at ho
      cases o with
      | ok a s₁ => obtain ⟨b, t', q, heq, -⟩ := ho; cases heq
      | fault e s₁ => intro he; obtain ⟨t', heq, -⟩ := ho he; cases heq
      | exhausted => rfl
  | ok c t₁ =>
      rw [hr] at ho
      rcases hf c t₁ with ⟨b, hb⟩ | ⟨e, he, hfault⟩
      · simp only [hb] at ho
        cases o with
        | ok a s₁ =>
            obtain ⟨b', t', q, heq, hadv, hs, hp⟩ := ho
            cases heq
            exact ⟨c, t₁, q, rfl, hadv, hs, b, hb, hp⟩
        | fault e s₁ => intro he; obtain ⟨t', heq, -⟩ := ho he; cases heq
        | exhausted => cases ho
      · simp only [hfault] at ho
        cases o with
        | ok a s₁ => obtain ⟨b, t', q, heq, -⟩ := ho; cases heq
        | fault e' s₁ =>
            intro he'
            obtain ⟨t', heq, -⟩ := ho he'
            cases heq
            exact absurd he' he
        | exhausted => cases ho

end Beside

/-! ## Kinds of values -/

theorem asInt_beside {v w : Value} (hs : s.Paired sigs p t) (hvw : v.Paired sigs p w) :
    Beside sigs p t (fun _ _ n n' => n = n' ∧ v = .int n) (asInt v s) (asInt w t) := by
  cases v with
  | int n =>
      obtain rfl : w = .int n := hvw
      exact .pure hs ⟨rfl, rfl⟩
  | _ => exact .clash

theorem asBool_beside {v w : Value} (hs : s.Paired sigs p t) (hvw : v.Paired sigs p w) :
    Beside sigs p t (fun _ _ b b' => b = b' ∧ v = .bool b) (asBool v s) (asBool w t) := by
  cases v with
  | bool b =>
      obtain rfl : w = .bool b := hvw
      exact .pure hs ⟨rfl, rfl⟩
  | _ => exact .clash

theorem asSlice_beside {v w : Value} (hs : s.Paired sigs p t) (hvw : v.Paired sigs p w) :
    Beside sigs p t (fun q _ a b => q.slices a.index = some b.index ∧ v = .slice a ∧ w = .slice b)
      (asSlice v s) (asSlice w t) := by
  cases v with
  | slice a =>
      obtain ⟨b, rfl, hab⟩ := hvw
      exact .pure hs ⟨hab, rfl, rfl⟩
  | _ => exact .clash

/-! ## Operators -/

theorem unary_beside {op : UnaryOp} {v w : Value} (hs : s.Paired sigs p t)
    (hvw : v.Paired sigs p w) :
    Beside sigs p t (fun q _ x y => x.Paired sigs q y) (unary op v s) (unary op w t) := by
  cases op with
  | not =>
      cases v with
      | bool b =>
          obtain rfl : w = .bool b := hvw
          exact .pure hs rfl
      | _ => exact .clash
  | negate =>
      cases v with
      | int n =>
          obtain rfl : w = .int n := hvw
          exact .pure hs rfl
      | _ => exact .clash

/-- A scalar looks the same in both stores. -/
theorem Value.paired_of_scalar {v : Value} (h : v.Scalar) : v.Paired sigs p v := by
  cases v <;> first | rfl | cases h

theorem binary_beside {op : BinaryOp} {v w v' w' : Value} (hs : s.Paired sigs p t)
    (hvw : v.Paired sigs p w) (hvw' : v'.Paired sigs p w') :
    Beside sigs p t (fun q _ x y => x.Paired sigs q y) (binary op v v' s) (binary op w w' t) := by
  unfold binary
  by_cases heq : op = .eq
  · rw [if_pos heq, if_pos heq]
    refine .ok hs ?_
    rw [hs.same_eq hvw hvw']
    rfl
  by_cases hne : op = .notEq
  · rw [if_neg heq, if_pos hne, if_neg heq, if_pos hne]
    refine .ok hs ?_
    rw [hs.same_eq hvw hvw']
    rfl
  rw [if_neg heq, if_neg hne, if_neg heq, if_neg hne]
  -- two integers or two strings; anything else is a clash
  cases v with
  | int a =>
      obtain rfl : w = .int a := hvw
      cases v' with
      | int b =>
          obtain rfl : w' = .int b := hvw'
          cases hb : Word.binary op a b with
          | ok x =>
              simp only [hb]
              exact .pure hs (Value.paired_of_scalar (Word.binary_scalar hb))
          | error e =>
              simp only [hb]
              exact fun _ => ⟨t, rfl, hs.output⟩
      | _ => exact .clash
  | str a =>
      obtain rfl : w = .str a := hvw
      cases v' with
      | str b =>
          obtain rfl : w' = .str b := hvw'
          cases hb : strings? op a b with
          | some x =>
              simp only [hb]
              exact .pure hs (Value.paired_of_scalar (strings?_scalar hb))
          | none =>
              simp only [hb]
              exact .clash
      | _ => exact .clash
  | _ => exact .clash

/-! ## Sequences -/

/-- Paired sequences have the same length. -/
theorem Store.Paired.length_eq (hs : s.Paired sigs p t) {a b : SliceAddr}
    (hab : p.slices a.index = some b.index) :
    ∃ n, Run.sliceLength a s = .ok n s ∧ Run.sliceLength b t = .ok n t ∧
      ∃ x y, s.slices[a.index]? = some x ∧ t.slices[b.index]? = some y ∧ x.items.size = n ∧
        y.items.size = n := by
  obtain ⟨x, y, hx, hy, hxy⟩ := hs.slices hab
  have hlen : x.items.size = y.items.size := by
    have := hxy.length_eq
    simpa using this
  refine ⟨x.items.size, ?_, ?_, x, y, hx, hy, rfl, hlen.symm⟩
  · simp [Run.sliceLength, hx]
  · simp [Run.sliceLength, hy, hlen]

/-- Elements of paired sequences at the same position. -/
theorem Store.Paired.readItem (hs : s.Paired sigs p t) {a b : SliceAddr}
    (hab : p.slices a.index = some b.index) (i : Nat) :
    ∃ v w, Run.readItem a i s = .ok v s ∧ Run.readItem b i t = .ok w t ∧ v.Paired sigs p w := by
  obtain ⟨x, y, hx, hy, hxy⟩ := hs.slices hab
  refine ⟨(x.items[i]?).getD .unit, (y.items[i]?).getD .unit, ?_, ?_, ?_⟩
  · simp [Run.readItem, hx]
  · simp [Run.readItem, hy]
  have hlen := hxy.length_eq
  rw [← Array.getElem?_toList, ← Array.getElem?_toList]
  by_cases hi : i < x.items.toList.length
  · have hi' : i < y.items.toList.length := hlen ▸ hi
    rw [List.getElem?_eq_getElem hi, List.getElem?_eq_getElem hi']
    exact List.Forall₂.get hxy hi hi'
  · have hi' : ¬ i < y.items.toList.length := hlen ▸ hi
    rw [List.getElem?_eq_none (by omega), List.getElem?_eq_none (by omega)]
    rfl

/-- The subscript of a sequence. -/
theorem index_beside {v w i j : Value} {b : Bounds} (hs : s.Paired sigs p t)
    (hvw : v.Paired sigs p w) (hij : i.Paired sigs p j) :
    Beside sigs p t (fun q _ x y => x.Paired sigs q y)
      ((do
        let i ← asInt i
        let a ← asSlice v
        let n ← Run.sliceLength a
        let k ← position i n b
        Run.readItem a k) s)
      ((do
        let i ← asInt j
        let a ← asSlice w
        let n ← Run.sliceLength a
        let k ← position i n b
        Run.readItem a k) t) := by
  refine Beside.bind (asInt_beside hs hij) ?_
  rintro q s₁ t₁ i₁ _ hadv hs₁ ⟨rfl, -⟩
  refine Beside.bind (asSlice_beside hs₁ (hvw.mono hadv.le)) ?_
  rintro q₂ s₂ t₂ a a' hadv₂ hs₂ ⟨hab, -⟩
  obtain ⟨n, hn, hn', -⟩ := hs₂.length_eq hab
  rw [Run.bind_apply_of_ok hn, Run.bind_apply_of_ok hn']
  unfold position
  split
  · obtain ⟨x, y, hx, hy, hxy⟩ := hs₂.readItem hab i₁.toInt.toNat
    rw [pure_bind, pure_bind, hx, hy]
    exact .ok hs₂ hxy
  · cases b with
    | checked => exact fun _ => ⟨t₂, rfl, hs₂.output⟩
    | elided => exact fun h => h.elim

/-- A new sequence on both sides. -/
theorem newSlice_beside {vs ws : List Value} {o o' : Option Origin} (hs : s.Paired sigs p t)
    (hvs : PairedValues sigs p vs ws) :
    Beside sigs p t (fun q _ x y => x.Paired sigs q y) (Run.newSlice vs.toArray o s)
      (Run.newSlice ws.toArray o' t) := by
  have hlen : vs.length = ws.length := hvs.length_eq
  unfold Run.newSlice
  by_cases hfit : vs.toArray.size < Slice.capacity
  · have hfit' : ws.toArray.size < Slice.capacity := by simpa [hlen] using hfit
    rw [dif_pos hfit, dif_pos hfit']
    have hs₁ := hs.extend (.pushSlice t ⟨ws.toArray, o', hfit'⟩)
    have hfree := hs.freeSlice (le_refl t.slices.size)
    have hs₂ := hs₁.pairSlice (x := ⟨vs.toArray, o, hfit⟩) (y := ⟨ws.toArray, o', hfit'⟩) (by simp)
      hfree hvs
    refine ⟨_, _, _, rfl, ?_, hs₂, ?_⟩
    · exact (Store.Extends.pushSlice t _).advances p |>.addSlice hs.slice_none le_rfl
    · exact ⟨_, rfl, by simp [Pairing.addSlice]⟩
  · have hfit' : ¬ ws.toArray.size < Slice.capacity := by simpa [hlen] using hfit
    rw [dif_neg hfit, dif_neg hfit']
    rfl

/-! ## Builtins -/

theorem builtin_beside {b : Builtin} {vs ws : List Value} (hs : s.Paired sigs p t)
    (hvs : PairedValues sigs p vs ws) :
    Beside sigs p t (fun q _ x y => x.Paired sigs q y) (builtin b vs s) (builtin b ws t) := by
  unfold builtin
  split
  · -- `println`
    rename_i v
    obtain ⟨w, ws', hvw, hws', rfl⟩ := List.forall₂_cons_left_iff.1 hvs
    obtain rfl := List.forall₂_nil_left_iff.1 hws'
    refine ⟨.unit, { t with output := t.output ++ t.render w ++ "\n" }, p, rfl,
      (Advances.refl p t).congr rfl rfl, hs.congr rfl rfl rfl rfl hs.closures ?_, rfl⟩
    simp only [hs.output, hs.render_eq hvw]
  · -- `str`
    rename_i n
    obtain ⟨w, ws', hvw, hws', rfl⟩ := List.forall₂_cons_left_iff.1 hvs
    obtain rfl := List.forall₂_nil_left_iff.1 hws'
    obtain rfl : w = .int n := hvw
    exact .pure hs rfl
  · -- `len` of a sequence
    rename_i a
    obtain ⟨w, ws', hvw, hws', rfl⟩ := List.forall₂_cons_left_iff.1 hvs
    obtain rfl := List.forall₂_nil_left_iff.1 hws'
    obtain ⟨a', rfl, hab⟩ := hvw
    obtain ⟨n, hn, hn', -⟩ := hs.length_eq hab
    simp only
    rw [Run.bind_apply_of_ok hn, Run.bind_apply_of_ok hn']
    exact .pure hs rfl
  · -- `len` of a string
    rename_i x
    obtain ⟨w, ws', hvw, hws', rfl⟩ := List.forall₂_cons_left_iff.1 hvs
    obtain rfl := List.forall₂_nil_left_iff.1 hws'
    obtain rfl : w = .str x := hvw
    exact .pure hs rfl
  · exact .clash

theorem returned_paired {vs ws : List Value} (h : PairedValues sigs p vs ws) :
    (returned vs).Paired sigs p (returned ws) := by
  cases h with
  | nil => rfl
  | cons hvw hvs =>
      cases hvs with
      | nil => exact hvw
      | cons hvw' hvs' =>
          exact ⟨_, rfl, Value.pairedList_iff.2 (.cons hvw (.cons hvw' hvs'))⟩

end Rivulet.Machine
