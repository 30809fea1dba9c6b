import Rivulet.Proofs.Lowering.Steps
import Rivulet.Proofs.Machine.Frames

set_option autoImplicit false

/-! # Paired values and stores

Lowering is compared with the direct treatment of maps by running both side by side. The two stores
differ: lowered code has cells for its temporaries, and it allocates the result of a map before the
elements are computed. A `Pairing` says which cells and sequences of the one store stand for which of
the other. Values are paired if they are the same up to that, where closures have the same identity
and the body of the second is the lowering of the body of the first.

What is not paired on the lowered side belongs to lowered code alone: `Advances` says that a run
leaves it as it is. That is what makes temporaries keep their values. Sequences are paired with a
*rank* that decreases from a sequence to those it holds, so that looking through sequences ends. -/

namespace Rivulet.Machine

open Ir

/-- Which cells and sequences of one store stand for which of another. -/
structure Pairing where
  cells : Nat → Option Nat
  slices : Nat → Option Nat

namespace Pairing

/-- One pairing extends another. -/
structure Le (p q : Pairing) : Prop where
  cells : ∀ {a b}, p.cells a = some b → q.cells a = some b
  slices : ∀ {a b}, p.slices a = some b → q.slices a = some b

theorem Le.refl (p : Pairing) : p.Le p := ⟨id, id⟩

theorem Le.trans {p q r : Pairing} (h : p.Le q) (h' : q.Le r) : p.Le r :=
  ⟨fun ha => h'.cells (h.cells ha), fun ha => h'.slices (h.slices ha)⟩

/-- Nothing is paired with this cell. -/
def FreeCell (p : Pairing) (b : Nat) : Prop := ∀ a, p.cells a ≠ some b

/-- Nothing is paired with this sequence. -/
def FreeSlice (p : Pairing) (b : Nat) : Prop := ∀ a, p.slices a ≠ some b

/-- Pair two cells. -/
def addCell (p : Pairing) (a b : Nat) : Pairing :=
  { p with cells := fun a' => if a' = a then some b else p.cells a' }

/-- Pair two sequences. -/
def addSlice (p : Pairing) (a b : Nat) : Pairing :=
  { p with slices := fun a' => if a' = a then some b else p.slices a' }

theorem le_addCell {p : Pairing} {a b : Nat} (h : p.cells a = none) : p.Le (p.addCell a b) := by
  refine ⟨fun {a' b'} ha => ?_, id⟩
  have hne : a' ≠ a := by rintro rfl; simp [h] at ha
  simp [addCell, hne, ha]

theorem le_addSlice {p : Pairing} {a b : Nat} (h : p.slices a = none) : p.Le (p.addSlice a b) := by
  refine ⟨id, fun {a' b'} ha => ?_⟩
  have hne : a' ≠ a := by rintro rfl; simp [h] at ha
  simp [addSlice, hne, ha]

/-- Of a map that is injective where it is defined, one more value may be given if it is new. -/
theorem eq_of_update {f : Nat → Option Nat} {a b x x' y : Nat}
    (hf : ∀ {x x' y : Nat}, f x = some y → f x' = some y → x = x') (hb : ∀ x, f x ≠ some b)
    (h : (if x = a then some b else f x) = some y)
    (h' : (if x' = a then some b else f x') = some y) : x = x' := by
  split at h <;> split at h'
  · rename_i hx hx'
    exact hx.trans hx'.symm
  · cases h
    exact absurd h' (hb x')
  · cases h'
    exact absurd h (hb x)
  · exact hf h h'

end Pairing

/-! ## Values -/

/-- A body of a function or closure, and a lowering of it. -/
def BodyLowers (sigs : Validate.Signatures) (ctx : Context) (rs : List Ir.Ty) (live : List LocalId)
    (b b' : List Stmt) : Prop :=
  Stmt.WellTypedBody ⟨ctx, sigs⟩ rs live b ∧
    ∃ st st', ctx.AddsTemps st.ctx ∧ Lowering.Lowers (Lowering.block b) st b' st'

/-- Captured cells are paired, local by local. -/
def PairedCells (p : Pairing) : List (LocalId × CellAddr) → List (LocalId × CellAddr) → Prop :=
  List.Forall₂ fun x y => x.1 = y.1 ∧ p.cells x.2.index = some y.2.index

/-- Two callables are the same up to the pairing and to lowering. -/
def Callable.Paired (sigs : Validate.Signatures) (p : Pairing) : Callable → Callable → Prop
  | .function f, .function g => f = g
  | .builtin b, .builtin c => b = c
  | .closure i ps b env, .closure j qs b' env' =>
      i = j ∧ ps = qs ∧ (∃ ctx rs, BodyLowers sigs ctx rs (ps ++ env.map Prod.fst) b b') ∧
        PairedCells p env env'
  | _, _ => False

mutual

/-- Two values are the same up to the pairing and to lowering. -/
def Value.Paired (sigs : Validate.Signatures) (p : Pairing) : Value → Value → Prop
  | .unit, w => w = .unit
  | .int n, w => w = .int n
  | .bool b, w => w = .bool b
  | .str s, w => w = .str s
  | .slice a, w => ∃ b, w = .slice b ∧ p.slices a.index = some b.index
  | .func c, w => ∃ d, w = .func d ∧ c.Paired sigs p d
  | .tuple vs, w => ∃ ws, w = .tuple ws ∧ Value.PairedList sigs p vs ws
termination_by structural v => v

/-- Values are paired one by one. -/
def Value.PairedList (sigs : Validate.Signatures) (p : Pairing) : List Value → List Value → Prop
  | [], ws => ws = []
  | v :: vs, ws => ∃ w us, ws = w :: us ∧ v.Paired sigs p w ∧ Value.PairedList sigs p vs us
termination_by structural vs => vs

end

variable {sigs : Validate.Signatures} {p q : Pairing} {s t t' t'' : Store}

theorem Value.pairedList_iff {vs ws : List Value} :
    Value.PairedList sigs p vs ws ↔ List.Forall₂ (Value.Paired sigs p) vs ws := by
  induction vs generalizing ws with
  | nil => simp [Value.PairedList, List.forall₂_nil_left_iff]
  | cons v vs ih =>
      simp only [Value.PairedList, List.forall₂_cons_left_iff, ih]
      constructor
      · rintro ⟨w, us, rfl, hw, hus⟩
        exact ⟨w, us, hw, hus, rfl⟩
      · rintro ⟨w, us, hw, hus, rfl⟩
        exact ⟨w, us, rfl, hw, hus⟩

theorem PairedCells.mono (h : p.Le q) {env env' : List (LocalId × CellAddr)}
    (henv : PairedCells p env env') : PairedCells q env env' :=
  List.Forall₂.imp (fun _ _ hxy => ⟨hxy.1, h.cells hxy.2⟩) henv

theorem PairedCells.fst_eq {env env' : List (LocalId × CellAddr)} (h : PairedCells p env env') :
    env.map Prod.fst = env'.map Prod.fst := by
  induction h with
  | nil => rfl
  | cons hxy _ ih => rw [List.map_cons, List.map_cons, hxy.1, ih]

theorem Callable.Paired.mono (h : p.Le q) {c d : Callable} (hc : c.Paired sigs p d) :
    c.Paired sigs q d := by
  cases c with
  | function f => cases d <;> exact hc
  | builtin b => cases d <;> exact hc
  | closure i ps b env =>
      cases d with
      | function g => exact hc
      | builtin c => exact hc
      | closure j qs b' env' => exact ⟨hc.1, hc.2.1, hc.2.2.1, hc.2.2.2.mono h⟩

mutual

theorem Value.Paired.mono (h : p.Le q) : ∀ {v w : Value}, v.Paired sigs p w → v.Paired sigs q w
  | .unit, _, hv | .int _, _, hv | .bool _, _, hv | .str _, _, hv => hv
  | .slice _, _, ⟨b, hw, hb⟩ => ⟨b, hw, h.slices hb⟩
  | .func _, _, ⟨d, hw, hc⟩ => ⟨d, hw, hc.mono h⟩
  | .tuple _, _, ⟨ws, hw, hvs⟩ => ⟨ws, hw, Value.PairedList.mono h hvs⟩

theorem Value.PairedList.mono (h : p.Le q) :
    ∀ {vs ws : List Value}, Value.PairedList sigs p vs ws → Value.PairedList sigs q vs ws
  | [], _, hvs => hvs
  | _ :: _, _, ⟨w, us, hws, hv, hvs⟩ => ⟨w, us, hws, hv.mono h, Value.PairedList.mono h hvs⟩

end

/-- Lists of values are paired. -/
def PairedValues (sigs : Validate.Signatures) (p : Pairing) : List Value → List Value → Prop :=
  List.Forall₂ (Value.Paired sigs p)

theorem PairedValues.mono (h : p.Le q) {vs ws : List Value} (hvs : PairedValues sigs p vs ws) :
    PairedValues sigs q vs ws :=
  List.Forall₂.imp (fun _ _ hv => hv.mono h) hvs

theorem PairedValues.exists_paired {vs ws : List Value} (h : PairedValues sigs p vs ws) {v : Value}
    (hv : v ∈ vs) : ∃ w, v.Paired sigs p w := by
  induction h with
  | nil => cases hv
  | cons hvw _ ih =>
      rcases List.mem_cons.1 hv with rfl | hv
      · exact ⟨_, hvw⟩
      · exact ih hv

/-! ### Ranks -/

mutual

/-- The sequences that a value holds directly have ranks below `k`. -/
def Value.Below (r : Nat → Nat) (k : Nat) : Value → Prop
  | .slice a => r a.index < k
  | .tuple vs => Value.BelowAll r k vs
  | .unit | .int _ | .bool _ | .str _ | .func _ => True
termination_by structural v => v

/-- The sequences that some values hold directly have ranks below `k`. -/
def Value.BelowAll (r : Nat → Nat) (k : Nat) : List Value → Prop
  | [] => True
  | v :: vs => v.Below r k ∧ Value.BelowAll r k vs
termination_by structural vs => vs

end

mutual

/-- A paired value holds paired sequences only. -/
theorem Value.Paired.below {r : Nat → Nat} {k : Nat}
    (h : ∀ a b, p.slices a = some b → r a < k) :
    ∀ {v w : Value}, v.Paired sigs p w → v.Below r k
  | .unit, _, _ | .int _, _, _ | .bool _, _, _ | .str _, _, _ | .func _, _, _ => trivial
  | .slice _, _, ⟨_, _, hb⟩ => h _ _ hb
  | .tuple _, _, ⟨_, _, hvs⟩ => Value.PairedList.belowAll h hvs

theorem Value.PairedList.belowAll {r : Nat → Nat} {k : Nat}
    (h : ∀ a b, p.slices a = some b → r a < k) :
    ∀ {vs ws : List Value}, Value.PairedList sigs p vs ws → Value.BelowAll r k vs
  | [], _, _ => trivial
  | _ :: _, _, ⟨_, _, _, hv, hvs⟩ => ⟨hv.below h, Value.PairedList.belowAll h hvs⟩

end

mutual

/-- Another rank and another bound. Only what is paired matters. -/
theorem Value.Below.congr {r r' : Nat → Nat} {k k' : Nat}
    (h : ∀ a b, p.slices a = some b → r a < k → r' a < k') :
    ∀ {v w : Value}, v.Paired sigs p w → v.Below r k → v.Below r' k'
  | .unit, _, _, _ | .int _, _, _, _ | .bool _, _, _, _ | .str _, _, _, _ | .func _, _, _, _ => trivial
  | .slice _, _, ⟨_, _, hb⟩, hr => h _ _ hb hr
  | .tuple _, _, ⟨_, _, hvs⟩, hr => Value.BelowAll.congr h hvs hr

theorem Value.BelowAll.congr {r r' : Nat → Nat} {k k' : Nat}
    (h : ∀ a b, p.slices a = some b → r a < k → r' a < k') :
    ∀ {vs ws : List Value}, Value.PairedList sigs p vs ws → Value.BelowAll r k vs →
      Value.BelowAll r' k' vs
  | [], _, _, _ => trivial
  | _ :: _, _, ⟨_, _, _, hv, hvs⟩, hr => ⟨Value.Below.congr h hv hr.1, Value.BelowAll.congr h hvs hr.2⟩

end

end Rivulet.Machine
