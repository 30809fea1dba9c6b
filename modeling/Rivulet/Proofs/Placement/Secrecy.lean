import Rivulet.Proofs.Placement.Confinement
import Rivulet.Proofs.Placement.Watch
import Rivulet.Proofs.Machine.Frames

set_option autoImplicit false

/-! # What one activation keeps to itself

One activation is observed. Its *secrets* are the sequences that it makes at kept sites, and its
*private* cells are those of its locals that no closure holds. A `World` records, for every cell, to
which local it is private, and for every sequence, as a secret of which site it counts.

A value is *open* if it names neither a secret nor a private cell. What is open stays so, since a world
only grows. A store *respects* a world if all elements of sequences and all cells that are not private
hold open values, while a private cell may also hold a secret that its local may refer to. Hence from
an open value no secret can be reached (`Store.Respects.not_secret`), however long the way.

`Keeps` is the property that is proved of runs. It is about two runs at once, a watched one and a plain
one: they end alike, and if they end with a value, the store respects a larger world. -/

namespace Rivulet.Machine

open Ir

/-! ## Observers and worlds -/

/-- Who observes one activation: the rule that its code keeps to, and the number of the activation. An
observer may also observe nothing. -/
structure Observer extends Confinement where
  activation : Option Nat

namespace Observer

variable (O : Observer)

/-- The site of a secret, if a sequence of this origin is one. -/
def secret? : Option Origin → Option Site
  | some o => if some o.activation = O.activation ∧ O.kept o.site = true then some o.site else none
  | none => none

/-- The local to which a cell is private if the activation `n` binds `x` to it. -/
def owner? (n : Nat) (x : LocalId) : Option LocalId :=
  if some n = O.activation ∧ x ∉ O.held then some x else none

/-- The sites of secrets that a cell may hold. -/
def cellSites : Option LocalId → List Site
  | some x => O.aliases.ofLocal x
  | none => []

/-- The sites of secrets that an expression may be if the activation `n` evaluates it. -/
def exprSites (n : Nat) (e : Expr) : List Site :=
  if some n = O.activation then O.aliases.ofExpr e else []

end Observer

/-- What is known of the addresses of a store: the local to which a cell is private, the site of a
sequence that is a secret, and how many activations there were. -/
structure World where
  cells : Nat → Option (Option LocalId)
  slices : Nat → Option (Option Site)
  activations : Nat

namespace World

/-- One world extends another. -/
structure Le (W W' : World) : Prop where
  cells : ∀ {c o}, W.cells c = some o → W'.cells c = some o
  slices : ∀ {a o}, W.slices a = some o → W'.slices a = some o
  activations : W.activations ≤ W'.activations

theorem Le.refl (W : World) : W.Le W := ⟨id, id, Nat.le_refl _⟩

theorem Le.trans {W W' W'' : World} (h : W.Le W') (h' : W'.Le W'') : W.Le W'' :=
  ⟨fun hc => h'.cells (h.cells hc), fun ha => h'.slices (h.slices ha),
    h.activations.trans h'.activations⟩

/-- Add a cell. -/
def addCell (W : World) (c : Nat) (o : Option LocalId) : World :=
  { W with cells := fun d => if d = c then some o else W.cells d }

/-- Add a sequence. -/
def addSlice (W : World) (a : Nat) (o : Option Site) : World :=
  { W with slices := fun b => if b = a then some o else W.slices b }

/-- Begin an activation. -/
def begin (W : World) : World := { W with activations := W.activations + 1 }

theorem le_addCell {W : World} {c : Nat} (h : W.cells c = none) (o : Option LocalId) :
    W.Le (W.addCell c o) := by
  refine ⟨fun {d p} hd => ?_, id, Nat.le_refl _⟩
  have hne : d ≠ c := by rintro rfl; simp [h] at hd
  simp [addCell, hne, hd]

theorem le_addSlice {W : World} {a : Nat} (h : W.slices a = none) (o : Option Site) :
    W.Le (W.addSlice a o) := by
  refine ⟨id, fun {b p} hb => ?_, Nat.le_refl _⟩
  have hne : b ≠ a := by rintro rfl; simp [h] at hb
  simp [addSlice, hne, hb]

theorem le_begin (W : World) : W.Le W.begin := ⟨id, id, Nat.le_succ _⟩

end World

/-! ## Open values -/

/-- A callable names no private cell. -/
def Callable.Open (W : World) : Callable → Prop
  | .function _ | .builtin _ => True
  | .closure _ _ _ env => ∀ p ∈ env, W.cells p.2.index = some none

mutual

/-- A value names neither a secret nor a private cell. -/
def Value.Open (W : World) : Value → Prop
  | .unit | .int _ | .bool _ | .str _ => True
  | .slice a => W.slices a.index = some none
  | .func c => c.Open W
  | .tuple vs => Value.OpenList W vs
termination_by structural v => v

/-- Every value of a list is open. -/
def Value.OpenList (W : World) : List Value → Prop
  | [] => True
  | v :: vs => v.Open W ∧ Value.OpenList W vs
termination_by structural vs => vs

end

/-- A value is open, or it is a secret of one of the given sites. -/
def Value.Seen (W : World) (sites : List Site) (v : Value) : Prop :=
  v.Open W ∨ ∃ a σ, v = .slice a ∧ W.slices a.index = some (some σ) ∧ σ ∈ sites

section Values

variable {W W' : World} {sites sites' : List Site}

theorem Value.openList_iff (vs : List Value) : Value.OpenList W vs ↔ ∀ v ∈ vs, v.Open W := by
  induction vs with
  | nil => simp [Value.OpenList]
  | cons v vs ih => simp [Value.OpenList, ih]

mutual

/-- An open value stays open if what is public stays public. -/
theorem Value.Open.of_public (hcells : ∀ {c}, W.cells c = some none → W'.cells c = some none)
    (hslices : ∀ {a}, W.slices a = some none → W'.slices a = some none) :
    ∀ {v : Value}, v.Open W → v.Open W'
  | .unit, _ | .int _, _ | .bool _, _ | .str _, _ => trivial
  | .slice _, hv => hslices hv
  | .func (.function _), _ | .func (.builtin _), _ => trivial
  | .func (.closure _ _ _ _), hv => fun p hp => hcells (hv p hp)
  | .tuple vs, hv => show Value.OpenList W' vs from Value.OpenList.of_public hcells hslices hv

theorem Value.OpenList.of_public (hcells : ∀ {c}, W.cells c = some none → W'.cells c = some none)
    (hslices : ∀ {a}, W.slices a = some none → W'.slices a = some none) :
    ∀ {vs : List Value}, Value.OpenList W vs → Value.OpenList W' vs
  | [], _ => trivial
  | _ :: _, hvs =>
      ⟨Value.Open.of_public hcells hslices hvs.1, Value.OpenList.of_public hcells hslices hvs.2⟩

end

theorem Value.Open.mono (h : W.Le W') {v : Value} (hv : v.Open W) : v.Open W' :=
  hv.of_public h.cells h.slices

theorem Value.OpenList.mono (h : W.Le W') {vs : List Value} (hvs : Value.OpenList W vs) :
    Value.OpenList W' vs :=
  hvs.of_public h.cells h.slices

theorem Value.Seen.mono (h : W.Le W') {v : Value} (hv : v.Seen W sites) : v.Seen W' sites := by
  rcases hv with hv | ⟨a, σ, rfl, ha, hσ⟩
  · exact .inl (hv.mono h)
  · exact .inr ⟨a, σ, rfl, h.slices ha, hσ⟩

theorem Value.Seen.weaken {v : Value} (hv : v.Seen W sites) (h : ∀ σ ∈ sites, σ ∈ sites') :
    v.Seen W sites' := by
  rcases hv with hv | ⟨a, σ, rfl, ha, hσ⟩
  · exact .inl hv
  · exact .inr ⟨a, σ, rfl, ha, h σ hσ⟩

/-- What is seen as a secret of no site is open. -/
theorem Value.Seen.open_of_nil {v : Value} (hv : v.Seen W []) : v.Open W := by
  rcases hv with hv | ⟨a, σ, rfl, ha, hσ⟩
  · exact hv
  · cases hσ

theorem Value.open_returned {vs : List Value} (h : Value.OpenList W vs) : (returned vs).Open W := by
  match vs, h with
  | [], _ => trivial
  | [v], h => exact h.1
  | _ :: _ :: _, h => exact h

end Values

/-! ## Stores -/

/-- A store respects a world. -/
structure Store.Respects (s : Store) (O : Observer) (W : World) : Prop where
  cells : ∀ {c v}, s.cells[c]? = some v → ∃ o, W.cells c = some o ∧ v.Seen W (O.cellSites o)
  slices : ∀ {a sl}, s.slices[a]? = some sl →
    W.slices a = some (O.secret? sl.origin) ∧ (∀ v ∈ sl.items, v.Open W) ∧
      ∀ o ∈ sl.origin, o.activation < s.activations
  cell_lt : ∀ {c o}, W.cells c = some o → c < s.cells.size
  slice_lt : ∀ {a o}, W.slices a = some o → a < s.slices.size
  activations : W.activations = s.activations
  begun : ∀ n ∈ O.activation, n < s.activations

namespace Store.Respects

variable {O : Observer} {W : World} {s : Store}

/-- A secret is a sequence of a kept site. -/
theorem kept_of_secret (h : s.Respects O W) {a : Nat} {σ : Site} (ha : W.slices a = some (some σ)) :
    O.kept σ = true := by
  obtain ⟨sl, hsl⟩ : ∃ sl, s.slices[a]? = some sl := ⟨_, Array.getElem?_eq_getElem (h.slice_lt ha)⟩
  have hsecret := (h.slices hsl).1
  rw [ha, Option.some.injEq] at hsecret
  cases ho : sl.origin with
  | none => rw [ho] at hsecret; cases hsecret
  | some o =>
      rw [ho] at hsecret
      simp only [Observer.secret?] at hsecret
      split at hsecret
      · rename_i hkept
        rw [Option.some.inj hsecret]
        exact hkept.2
      · cases hsecret

/-- What may be a secret of sites only that are not kept is open. -/
theorem open_of_released (h : s.Respects O W) {v : Value} {sites : List Site}
    (hv : v.Seen W sites) (hsites : ∀ σ ∈ sites, O.kept σ = false) : v.Open W := by
  rcases hv with hv | ⟨a, σ, rfl, ha, hσ⟩
  · exact hv
  · have hkept := h.kept_of_secret ha
    rw [hsites σ hσ] at hkept
    cases hkept

/-- **No secret can be reached from an open value.** -/
theorem not_secret (h : s.Respects O W) {v : Value} {a : SliceAddr} (hreach : s.Reaches v a)
    (hv : v.Open W) : W.slices a.index = some none := by
  induction hreach with
  | slice a => exact hv
  | item ha hw _ ih => exact ih ((h.slices ha).2.1 _ hw)
  | element hw _ ih => exact ih ((Value.openList_iff _).1 hv _ hw)
  | captured hc hw _ ih =>
      obtain ⟨o, ho, hseen⟩ := h.cells hw
      have hpublic : W.cells _ = some none := hv _ hc
      rw [hpublic, Option.some.injEq] at ho
      subst ho
      exact ih hseen.open_of_nil

theorem cell_free (h : s.Respects O W) : W.cells s.cells.size = none := by
  cases hc : W.cells s.cells.size with
  | none => rfl
  | some o => exact absurd (h.cell_lt hc) (Nat.lt_irrefl _)

theorem slice_free (h : s.Respects O W) : W.slices s.slices.size = none := by
  cases hc : W.slices s.slices.size with
  | none => rfl
  | some o => exact absurd (h.slice_lt hc) (Nat.lt_irrefl _)

/-- Only the cells, the sequences and the number of activations matter. -/
theorem congr {s' : Store} (h : s.Respects O W) (hc : s'.cells = s.cells)
    (hs : s'.slices = s.slices) (ha : s'.activations = s.activations) : s'.Respects O W := by
  refine ⟨fun hv => ?_, fun hsl => ?_, fun ho => ?_, fun ho => ?_, ?_, ?_⟩
  · exact h.cells (hc ▸ hv)
  · rw [ha]
    exact h.slices (hs ▸ hsl)
  · rw [hc]
    exact h.cell_lt ho
  · rw [hs]
    exact h.slice_lt ho
  · rw [ha]
    exact h.activations
  · rw [ha]
    exact h.begun

theorem «begin» (h : s.Respects O W) :
    Store.Respects { s with activations := s.activations + 1 } O W.begin := by
  have hle := W.le_begin
  refine ⟨fun hv => ?_, fun hsl => ?_, h.cell_lt, h.slice_lt, ?_, ?_⟩
  · obtain ⟨o, ho, hseen⟩ := h.cells hv
    exact ⟨o, ho, hseen.mono hle⟩
  · obtain ⟨hsecret, hitems, horigin⟩ := h.slices hsl
    exact ⟨hsecret, fun v hv => (hitems v hv).mono hle,
      fun o ho => Nat.lt_succ_of_lt (horigin o ho)⟩
  · exact congrArg (· + 1) h.activations
  · exact fun n hn => Nat.lt_succ_of_lt (h.begun n hn)

/-- A new cell holds what its owner may refer to. -/
theorem pushCell (h : s.Respects O W) {v : Value} {o : Option LocalId}
    (hv : v.Seen W (O.cellSites o)) :
    Store.Respects { s with cells := s.cells.push v } O (W.addCell s.cells.size o) := by
  have hle : W.Le (W.addCell s.cells.size o) := World.le_addCell h.cell_free o
  refine ⟨fun {c w} hw => ?_, fun hsl => ?_, fun {c p} hp => ?_, h.slice_lt, h.activations, h.begun⟩
  · simp only [Array.getElem?_push] at hw
    split at hw
    · rename_i hc
      cases hw
      exact ⟨o, by simp [World.addCell, hc], hv.mono hle⟩
    · obtain ⟨p, hp, hseen⟩ := h.cells hw
      exact ⟨p, hle.cells hp, hseen.mono hle⟩
  · obtain ⟨hsecret, hitems, horigin⟩ := h.slices hsl
    exact ⟨hsecret, fun w hw => (hitems w hw).mono hle, horigin⟩
  · simp only [Array.size_push]
    by_cases hc : c = s.cells.size
    · omega
    · simp only [World.addCell, if_neg hc] at hp
      exact Nat.lt_succ_of_lt (h.cell_lt hp)

/-- A new sequence holds open values. -/
theorem pushSlice (h : s.Respects O W) (sl : Slice) (hitems : ∀ v ∈ sl.items, v.Open W)
    (horigin : ∀ o ∈ sl.origin, o.activation < s.activations) :
    Store.Respects { s with slices := s.slices.push sl } O
      (W.addSlice s.slices.size (O.secret? sl.origin)) := by
  have hle : W.Le (W.addSlice s.slices.size (O.secret? sl.origin)) :=
    World.le_addSlice h.slice_free _
  refine ⟨fun hw => ?_, fun {a tl} htl => ?_, h.cell_lt, fun {a p} hp => ?_, h.activations, h.begun⟩
  · obtain ⟨p, hp, hseen⟩ := h.cells hw
    exact ⟨p, hp, hseen.mono hle⟩
  · simp only [Array.getElem?_push] at htl
    split at htl
    · rename_i ha
      cases htl
      exact ⟨by simp [World.addSlice, ha], fun v hv => (hitems v hv).mono hle, horigin⟩
    · obtain ⟨hsecret, hall, hact⟩ := h.slices htl
      exact ⟨hle.slices hsecret, fun v hv => (hall v hv).mono hle, hact⟩
  · simp only [Array.size_push]
    by_cases ha : a = s.slices.size
    · omega
    · simp only [World.addSlice, if_neg ha] at hp
      exact Nat.lt_succ_of_lt (h.slice_lt hp)

/-- A cell is overwritten with what its owner may refer to. -/
theorem writeCell (h : s.Respects O W) {c : Nat} {v : Value} {o : Option LocalId}
    (hc : W.cells c = some o) (hv : v.Seen W (O.cellSites o)) :
    Store.Respects { s with cells := s.cells.setIfInBounds c v } O W := by
  refine ⟨fun {d w} hw => ?_, h.slices, fun {d p} hp => ?_, h.slice_lt, h.activations, h.begun⟩
  · simp only [Array.getElem?_setIfInBounds] at hw
    split at hw
    · rename_i hdc
      subst hdc
      split at hw
      · cases hw
        exact ⟨o, hc, hv⟩
      · cases hw
    · exact h.cells hw
  · simp only [Array.size_setIfInBounds]
    exact h.cell_lt hp

/-- An element is overwritten with an open value, be it in a secret. -/
theorem writeItem (h : s.Respects O W) {a i : Nat} {v : Value} (hv : v.Open W) :
    Store.Respects { s with slices := s.slices.modify a fun sl => sl.set i v } O W := by
  refine ⟨h.cells, fun {b tl} htl => ?_, h.cell_lt, fun {b p} hp => ?_, h.activations, h.begun⟩
  · simp only [Array.getElem?_modify] at htl
    split at htl
    · obtain ⟨sl, hsl, rfl⟩ := Option.map_eq_some_iff.1 htl
      obtain ⟨hsecret, hall, hact⟩ := h.slices hsl
      refine ⟨hsecret, fun w hw => ?_, hact⟩
      rcases Array.mem_or_eq_of_mem_setIfInBounds hw with hw | rfl
      · exact hall w hw
      · exact hv
    · exact h.slices htl
  · simp only [Array.size_modify]
    exact h.slice_lt hp

end Store.Respects

end Rivulet.Machine
