import Rivulet.Machine.Value
import Mathlib.Tactic

set_option autoImplicit false

/-! # Values that look alike

The text of a value and equality of values look through addresses, following as many of them as they
are told to. Two values on two stores look alike if they differ in addresses and in callables only,
and these correspond. What corresponds is said by relations: `κ` for callables, and for sequences one
relation `ρ k` for each number `k`, which may be used for the addresses that are at most `k` steps
away from the end: what two sequences in `ρ k` hold is alike by some smaller `ρ j`. Then `k` steps are
enough to see all of a value, and any two numbers of steps from `k` on give the same. -/

namespace Rivulet.Machine

open Ir

mutual

/-- Two values differ in corresponding addresses and callables only. -/
def Value.Alike (ρ : SliceAddr → SliceAddr → Prop) (κ : Callable → Callable → Prop) :
    Value → Value → Prop
  | .unit, w => w = .unit
  | .int n, w => w = .int n
  | .bool b, w => w = .bool b
  | .str s, w => w = .str s
  | .slice a, w => ∃ b, w = .slice b ∧ ρ a b
  | .func c, w => ∃ d, w = .func d ∧ κ c d
  | .tuple vs, w => ∃ ws, w = .tuple ws ∧ Value.AlikeList ρ κ vs ws
termination_by structural v => v

/-- Two lists of values differ in corresponding addresses and callables only. -/
def Value.AlikeList (ρ : SliceAddr → SliceAddr → Prop) (κ : Callable → Callable → Prop) :
    List Value → List Value → Prop
  | [], ws => ws = []
  | v :: vs, ws => ∃ w us, ws = w :: us ∧ v.Alike ρ κ w ∧ Value.AlikeList ρ κ vs us
termination_by structural vs => vs

end

section Alike

variable {ρ ρ' : SliceAddr → SliceAddr → Prop} {κ : Callable → Callable → Prop}

/-- What is alike is quoted alike. -/
theorem Value.Alike.nested_eq {v w : Value} (h : v.Alike ρ κ w) (text : String) :
    v.nested text = w.nested text := by
  cases v with
  | unit | int _ | bool _ | str _ => rw [h]
  | slice a => obtain ⟨b, rfl, -⟩ := h; rfl
  | func c => obtain ⟨d, rfl, -⟩ := h; rfl
  | tuple vs => obtain ⟨ws, rfl, -⟩ := h; rfl

section Text

variable {f g : SliceAddr → String}

mutual

theorem Value.Alike.renderWith_eq (hκ : ∀ {c d : Callable}, κ c d → c.render = d.render)
    (hfg : ∀ a b : SliceAddr, ρ a b → f a = g b) :
    ∀ {v w : Value}, v.Alike ρ κ w →
    v.renderWith f = w.renderWith g
  | .unit, _, h | .int _, _, h | .bool _, _, h | .str _, _, h => by rw [h]; rfl
  | .slice a, _, ⟨b, hw, hab⟩ => by
      subst hw
      exact hfg a b hab
  | .func _, _, ⟨d, hw, hcd⟩ => by
      subst hw
      exact hκ hcd
  | .tuple vs, _, ⟨ws, hw, hvs⟩ => by
      subst hw
      simp only [Value.renderWith, Value.AlikeList.renderListWith_eq hκ hfg hvs]

theorem Value.AlikeList.renderListWith_eq (hκ : ∀ {c d : Callable}, κ c d → c.render = d.render)
    (hfg : ∀ a b : SliceAddr, ρ a b → f a = g b) :
    ∀ {vs ws : List Value}, Value.AlikeList ρ κ vs ws →
    Value.renderListWith f vs = Value.renderListWith g ws
  | [], _, h => by rw [h]; rfl
  | v :: vs, _, ⟨w, us, hws, hvw, hvs⟩ => by
      subst hws
      simp only [Value.renderListWith, Value.Alike.renderWith_eq hκ hfg hvw, hvw.nested_eq,
        Value.AlikeList.renderListWith_eq hκ hfg hvs]

end

end Text

section Same

variable {f g : SliceAddr → SliceAddr → Bool}

mutual

theorem Value.Alike.sameWith_eq
    (hκ : ∀ {c d c' d' : Callable}, κ c d → κ c' d' → c.same c' = d.same d')
    (hfg : ∀ a b a' b' : SliceAddr, ρ a b → ρ' a' b' → f a a' = g b b') :
    ∀ {v w v' w' : Value}, v.Alike ρ κ w → v'.Alike ρ' κ w' →
    v.sameWith f v' = w.sameWith g w'
  | .unit, w, v', w', h, h' | .int _, w, v', w', h, h' | .bool _, w, v', w', h, h'
  | .str _, w, v', w', h, h' => by
      subst h
      cases v' <;> simp only [Value.Alike] at h' <;> (try obtain ⟨_, rfl, -⟩ := h') <;>
        simp_all [Value.sameWith]
  | .slice a, w, v', w', ⟨b, hw, hab⟩, h' => by
      subst hw
      cases v' with
      | slice a' =>
          obtain ⟨b', rfl, hab'⟩ := h'
          exact hfg a b a' b' hab hab'
      | func _ => obtain ⟨_, rfl, -⟩ := h'; rfl
      | tuple _ => obtain ⟨_, rfl, -⟩ := h'; rfl
      | unit | int _ | bool _ | str _ => rw [h']; rfl
  | .func c, w, v', w', ⟨d, hw, hcd⟩, h' => by
      subst hw
      cases v' with
      | slice _ => obtain ⟨_, rfl, -⟩ := h'; rfl
      | func c' =>
          obtain ⟨d', rfl, hcd'⟩ := h'
          exact hκ hcd hcd'
      | tuple _ => obtain ⟨_, rfl, -⟩ := h'; rfl
      | unit | int _ | bool _ | str _ => rw [h']; rfl
  | .tuple vs, w, v', w', ⟨ws, hw, hvs⟩, h' => by
      subst hw
      cases v' with
      | slice _ => obtain ⟨_, rfl, -⟩ := h'; rfl
      | func _ => obtain ⟨_, rfl, -⟩ := h'; rfl
      | tuple vs' =>
          obtain ⟨ws', rfl, hvs'⟩ := h'
          exact Value.AlikeList.sameListWith_eq hκ hfg hvs hvs'
      | unit | int _ | bool _ | str _ => rw [h']; rfl

theorem Value.AlikeList.sameListWith_eq
    (hκ : ∀ {c d c' d' : Callable}, κ c d → κ c' d' → c.same c' = d.same d')
    (hfg : ∀ a b a' b' : SliceAddr, ρ a b → ρ' a' b' → f a a' = g b b') :
    ∀ {vs ws vs' ws' : List Value},
    Value.AlikeList ρ κ vs ws → Value.AlikeList ρ' κ vs' ws' →
      Value.sameListWith f vs vs' = Value.sameListWith g ws ws'
  | [], ws, vs', ws', h, h' => by
      subst h
      cases vs' with
      | nil => rw [h']; rfl
      | cons v' vs' => obtain ⟨w', us', rfl, -⟩ := h'; rfl
  | v :: vs, ws, vs', ws', ⟨w, us, hws, hvw, hvs⟩, h' => by
      subst hws
      cases vs' with
      | nil => rw [h']; rfl
      | cons v' vs' =>
          obtain ⟨w', us', rfl, hvw', hvs'⟩ := h'
          simp only [Value.sameListWith, Value.Alike.sameWith_eq hκ hfg hvw hvw',
            Value.AlikeList.sameListWith_eq hκ hfg hvs hvs']

end

end Same

/-- Lists of related values give the same list, if related values give the same. -/
theorem map_eq_of_forall₂ {α β γ : Type} {R : α → β → Prop} {f : α → γ} {g : β → γ} {as : List α}
    {bs : List β} (h : List.Forall₂ R as bs) (hfg : ∀ a b, R a b → f a = g b) :
    as.map f = bs.map g := by
  induction h with
  | nil => rfl
  | cons hab _ ih => rw [List.map_cons, List.map_cons, hfg _ _ hab, ih]

/-- Lists of related values are equal to each other on both sides or on neither, if their elements
are. -/
theorem sameItems_eq_of_forall₂ {R R' : Value → Value → Prop} {f g : Value → Value → Bool}
    {vs ws vs' ws' : List Value} (h : List.Forall₂ R vs ws) (h' : List.Forall₂ R' vs' ws')
    (hfg : ∀ v w v' w', R v w → R' v' w' → f v v' = g w w') :
    Value.sameItems f vs vs' = Value.sameItems g ws ws' := by
  induction h generalizing vs' ws' with
  | nil => cases h' <;> rfl
  | cons hvw _ ih =>
      cases h' with
      | nil => rfl
      | cons hvw' hvs' => simp only [Value.sameItems, hfg _ _ _ _ hvw hvw', ih hvs']

end Alike

/-! ## Looking through sequences -/

section Depth

variable {ρ : Nat → SliceAddr → SliceAddr → Prop} {κ : Callable → Callable → Prop}
  {items items' : SliceAddr → List Value}
  (hitems : ∀ {k : Nat} {a b : SliceAddr}, ρ k a b →
    ∃ j < k, List.Forall₂ (Value.Alike (ρ j) κ) (items a) (items' b))

include hitems

/-- **Values that look alike have the same text**, however many addresses are followed, if they are
enough. -/
theorem Value.Alike.renderUpTo_eq (hκ : ∀ {c d : Callable}, κ c d → c.render = d.render) (k : Nat) :
    ∀ {v w : Value} {d e : Nat}, v.Alike (ρ k) κ w → k ≤ d → k ≤ e →
      v.renderUpTo items d = w.renderUpTo items' e := by
  induction k using Nat.strong_induction_on with
  | _ k ih =>
      intro v w d e hvw hd he
      -- at the end there are no addresses left
      have hend : k = 0 → ∀ a b : SliceAddr, ¬ ρ k a b := by
        rintro rfl a b hab
        obtain ⟨j, hj, -⟩ := hitems hab
        exact absurd hj (Nat.not_lt_zero j)
      cases d with
      | zero =>
          have hnone := hend (Nat.le_zero.1 hd)
          cases e with
          | zero => exact hvw.renderWith_eq hκ fun a b hab => absurd hab (hnone a b)
          | succ e => exact hvw.renderWith_eq hκ fun a b hab => absurd hab (hnone a b)
      | succ d =>
          cases e with
          | zero =>
              have hnone := hend (Nat.le_zero.1 he)
              exact hvw.renderWith_eq hκ fun a b hab => absurd hab (hnone a b)
          | succ e =>
              refine hvw.renderWith_eq hκ fun a b hab => ?_
              obtain ⟨j, hj, hall⟩ := hitems hab
              have htexts : (items a).map (fun v => Value.nested (v.renderUpTo items d) v) =
                  (items' b).map (fun w => Value.nested (w.renderUpTo items' e) w) := by
                refine map_eq_of_forall₂ hall fun v w hvw => ?_
                have htext : v.renderUpTo items d = w.renderUpTo items' e :=
                  ih j hj hvw (by omega) (by omega)
                rw [htext]
                exact hvw.nested_eq _
              rw [htexts]

/-- **Values that look alike are equal on both sides or on neither**, however many addresses are
followed, if they are enough for the first. -/
theorem Value.Alike.sameUpTo_eq
    (hκ : ∀ {c d c' d' : Callable}, κ c d → κ c' d' → c.same c' = d.same d') (k : Nat) :
    ∀ {k' : Nat} {v w v' w' : Value} {d e : Nat}, v.Alike (ρ k) κ w → v'.Alike (ρ k') κ w' →
      k ≤ d → k ≤ e → v.sameUpTo items d v' = w.sameUpTo items' e w' := by
  induction k using Nat.strong_induction_on with
  | _ k ih =>
      intro k' v w v' w' d e hvw hvw' hd he
      have hend : k = 0 → ∀ a b : SliceAddr, ¬ ρ k a b := by
        rintro rfl a b hab
        obtain ⟨j, hj, -⟩ := hitems hab
        exact absurd hj (Nat.not_lt_zero j)
      cases d with
      | zero =>
          have hnone := hend (Nat.le_zero.1 hd)
          cases e with
          | zero => exact hvw.sameWith_eq hκ (fun a b _ _ hab _ => absurd hab (hnone a b)) hvw'
          | succ e => exact hvw.sameWith_eq hκ (fun a b _ _ hab _ => absurd hab (hnone a b)) hvw'
      | succ d =>
          cases e with
          | zero =>
              have hnone := hend (Nat.le_zero.1 he)
              exact hvw.sameWith_eq hκ (fun a b _ _ hab _ => absurd hab (hnone a b)) hvw'
          | succ e =>
              refine hvw.sameWith_eq hκ (fun a b a' b' hab hab' => ?_) hvw'
              obtain ⟨j, hj, hall⟩ := hitems hab
              obtain ⟨j', -, hall'⟩ := hitems hab'
              refine sameItems_eq_of_forall₂ hall hall' fun v w v' w' hvw hvw' => ?_
              exact ih j hj hvw hvw' (by omega) (by omega)

end Depth

end Rivulet.Machine
