import Rivulet.Machine.Eval
import Rivulet.Proofs.Lowering.SideBySide

set_option autoImplicit false

/-! # Paired frames

A direct frame and a lowered frame agree on the locals of the program, which are those with a number
below some bound. The lowered frame has temporaries in addition, whose numbers start at the bound.
The cells of temporaries are not paired with anything, so nobody else can change them. -/

namespace Rivulet.Machine

open Ir

/-- Two frames agree on the locals below `bound`, and the others of the lowered frame have cells of
their own. -/
structure Frame.Paired (bound : Nat) (p : Pairing) (t : Store) (fr fr' : Frame) : Prop where
  locals : ∀ x a, x.index < bound → fr.cells.lookup x = some a →
    ∃ b, fr'.cells.lookup x = some b ∧ p.cells a.index = some b.index
  temps : ∀ x b, bound ≤ x.index → fr'.cells.lookup x = some b →
    b.index < t.cells.size ∧ p.FreeCell b.index

variable {sigs : Validate.Signatures} {p q : Pairing} {s t t' : Store} {bound : Nat}
  {fr fr' : Frame}

theorem Frame.Paired.advance (h : Frame.Paired bound p t fr fr') (hadv : Advances p t q t') :
    Frame.Paired bound q t' fr fr' := by
  refine ⟨fun x a hx ha => ?_, fun x b hx hb => ?_⟩
  · obtain ⟨b, hb, hab⟩ := h.locals x a hx ha
    exact ⟨b, hb, hadv.le.cells hab⟩
  · obtain ⟨hlt, hfree⟩ := h.temps x b hx hb
    exact ⟨hlt.trans_le hadv.cells_size, (hadv.cell b.index hlt hfree).2⟩

/-! ## Locals of the program -/

theorem Frame.cell_beside (hs : s.Paired sigs p t) (hfr : Frame.Paired bound p t fr fr')
    {x : LocalId} (hx : x.index < bound) :
    Beside sigs p t (fun q _ a b => q.cells a.index = some b.index) (fr.cell x s) (fr'.cell x t) := by
  cases ha : fr.cells.lookup x with
  | none =>
      simp only [Frame.cell, ha]
      exact fun h => h.elim
  | some a =>
      obtain ⟨b, hb, hab⟩ := hfr.locals x a hx ha
      rw [Frame.cell_of_lookup ha, Frame.cell_of_lookup hb]
      exact .pure hs hab

theorem Frame.read_beside (hs : s.Paired sigs p t) (hfr : Frame.Paired bound p t fr fr')
    {x : LocalId} (hx : x.index < bound) :
    Beside sigs p t (fun q _ v w => v.Paired sigs q w) (fr.read x s) (fr'.read x t) := by
  refine Beside.bind (Frame.cell_beside hs hfr hx) ?_
  intro q s₁ t₁ a b _ hs₁ hab
  obtain ⟨v, w, hv, hw, hvw⟩ := hs₁.cells hab
  refine .ok hs₁ ?_
  simpa [hv, hw] using hvw

theorem Frame.write_beside (hs : s.Paired sigs p t) (hfr : Frame.Paired bound p t fr fr')
    {x : LocalId} (hx : x.index < bound) {v w : Value} (hvw : v.Paired sigs p w) :
    Beside sigs p t (fun _ _ _ _ => True) (fr.write x v s) (fr'.write x w t) := by
  refine Beside.bind (Frame.cell_beside hs hfr hx) ?_
  intro q s₁ t₁ a b hadv hs₁ hab
  refine ⟨(), _, q, rfl, ?_, hs₁.writeCell hab (hvw.mono hadv.le), trivial⟩
  -- the cell that is overwritten is paired, so it is none of those that must stay
  refine ⟨.refl q, by simp, fun c hc hfree => ⟨?_, hfree⟩, fun _ _ h => ⟨rfl, h⟩,
    fun h => ⟨_, h, rfl⟩⟩
  have hne : b.index ≠ c := fun heq => hfree a.index (heq ▸ hab)
  simp only [Array.getElem?_setIfInBounds_ne hne]

theorem Frame.bind_beside (hs : s.Paired sigs p t) (hfr : Frame.Paired bound p t fr fr')
    {x : LocalId} (hx : x.index < bound) {v w : Value} (hvw : v.Paired sigs p w) :
    Beside sigs p t (fun q t' fr₁ fr₁' => Frame.Paired bound q t' fr₁ fr₁') (fr.bind x v s)
      (fr'.bind x w t) := by
  have hadv : Advances p t (p.addCell s.cells.size t.cells.size)
      { t with cells := t.cells.push w } :=
    ((Store.Extends.pushCell t w).advances p).addCell hs.cell_none le_rfl
  refine ⟨_, _, _, rfl, hadv, hs.pushCell hvw, ?_⟩
  have hfr₁ := hfr.advance hadv
  refine ⟨fun y a hy ha => ?_, fun y b hy hb => ?_⟩
  · simp only [Frame.lookup_setCell] at ha ⊢
    by_cases hyx : y = x
    · rw [if_pos hyx, Option.some.injEq] at ha
      subst ha
      exact ⟨⟨t.cells.size⟩, if_pos hyx, by simp [Pairing.addCell]⟩
    · rw [if_neg hyx] at ha ⊢
      exact hfr₁.locals y a hy ha
  · have hyx : y ≠ x := by
      rintro rfl
      omega
    simp only [Frame.lookup_setCell, if_neg hyx] at hb
    exact hfr₁.temps y b hy hb

theorem Frame.bindAll_beside :
    ∀ {xs : List LocalId} {vs ws : List Value} {p : Pairing} {s t : Store} {fr fr' : Frame},
      s.Paired sigs p t → Frame.Paired bound p t fr fr' → (∀ x ∈ xs, x.index < bound) →
      PairedValues sigs p vs ws →
      Beside sigs p t (fun q t' fr₁ fr₁' => Frame.Paired bound q t' fr₁ fr₁') (fr.bindAll xs vs s)
        (fr'.bindAll xs ws t)
  | [], vs, ws, p, s, t, fr, fr', hs, hfr, _, _ => .pure hs hfr
  | x :: xs, vs, ws, p, s, t, fr, fr', hs, hfr, hxs, hvs => by
      cases hvs with
      | nil => exact .pure hs hfr
      | cons hvw hvs =>
          refine Beside.bind (Frame.bind_beside hs hfr (hxs x (by simp)) hvw) ?_
          intro q s₁ t₁ fr₁ fr₁' hadv hs₁ hfr₁
          exact Frame.bindAll_beside hs₁ hfr₁ (fun y hy => hxs y (List.mem_cons_of_mem _ hy))
            (PairedValues.mono hadv.le hvs)

theorem Frame.bindParams_beside (hs : s.Paired sigs p t) (hfr : Frame.Paired bound p t fr fr')
    {xs : List LocalId} (hxs : ∀ x ∈ xs, x.index < bound) {vs ws : List Value}
    (hvs : PairedValues sigs p vs ws) :
    Beside sigs p t (fun q t' fr₁ fr₁' => Frame.Paired bound q t' fr₁ fr₁') (fr.bindParams xs vs s)
      (fr'.bindParams xs ws t) := by
  have hlen : vs.length = ws.length := hvs.length_eq
  unfold Frame.bindParams
  by_cases hxv : xs.length = vs.length
  · rw [if_pos hxv, if_pos (hxv.trans hlen)]
    exact Frame.bindAll_beside hs hfr hxs hvs
  · rw [if_neg hxv]
    exact .clash

/-! ## Closures -/

theorem captureCells_beside {cs : List LocalId} (hcs : ∀ x ∈ cs, x.index < bound) :
    ∀ {p : Pairing} {s t : Store}, s.Paired sigs p t → Frame.Paired bound p t fr fr' →
      Beside sigs p t (fun q _ env env' => PairedCells q env env' ∧ env.map Prod.fst = cs)
        (captureCells fr cs s) (captureCells fr' cs t) := by
  induction cs with
  | nil => exact fun hs _ => .pure hs ⟨.nil, rfl⟩
  | cons x cs ih =>
      intro p s t hs hfr
      refine Beside.bind (Frame.cell_beside hs hfr (hcs x (by simp))) ?_
      intro q s₁ t₁ a b hadv hs₁ hab
      refine Beside.bind (ih (fun y hy => hcs y (List.mem_cons_of_mem _ hy)) hs₁ (hfr.advance hadv)) ?_
      rintro r s₂ t₂ env env' hadv₂ hs₂ ⟨henv, hfst⟩
      exact .pure hs₂ ⟨.cons ⟨rfl, hadv₂.le.cells hab⟩ henv, by rw [List.map_cons, hfst]⟩

theorem PairedCells.lookup {env env' : List (LocalId × CellAddr)} (h : PairedCells p env env')
    {x : LocalId} {a : CellAddr} (ha : env.lookup x = some a) :
    ∃ b, env'.lookup x = some b ∧ p.cells a.index = some b.index := by
  induction h with
  | nil => cases ha
  | @cons y y' env env' hy _ ih =>
      obtain ⟨hfst, hcell⟩ := hy
      rw [List.lookup_cons, ← hfst]
      rw [List.lookup_cons] at ha
      split at ha
      · cases ha
        exact ⟨y'.2, rfl, hcell⟩
      · exact ih ha

/-- The frames in which paired closures start. -/
theorem Frame.Paired.ofClosure {env env' : List (LocalId × CellAddr)} (h : PairedCells p env env')
    (hbound : ∀ x ∈ env.map Prod.fst, x.index < bound) (n n' : Nat) :
    Frame.Paired bound p t ⟨n, closureCells env⟩ ⟨n', closureCells env'⟩ := by
  refine ⟨fun x a _ ha => ?_, fun x b hx hb => ?_⟩
  · rw [lookup_closureCells] at ha ⊢
    exact PairedCells.lookup (List.forall₂_reverse_iff.2 h) ha
  · have hmem : x ∈ env'.map Prod.fst :=
      List.mem_map.2 ⟨_, mem_of_lookup_closureCells hb, rfl⟩
    rw [← h.fst_eq] at hmem
    have := hbound x hmem
    omega

/-! ## Temporaries -/

/-- A frame has changed at most on the given locals. -/
def Frame.Keeps (temps : Set Nat) (fr fr' : Frame) : Prop :=
  ∀ x : LocalId, x.index ∉ temps → fr'.cells.lookup x = fr.cells.lookup x

theorem Frame.Keeps.refl (temps : Set Nat) (fr : Frame) : Frame.Keeps temps fr fr := fun _ _ => rfl

theorem Frame.Keeps.trans {temps : Set Nat} {fr₁ fr₂ fr₃ : Frame} (h : Frame.Keeps temps fr₁ fr₂)
    (h' : Frame.Keeps temps fr₂ fr₃) : Frame.Keeps temps fr₁ fr₃ :=
  fun x hx => (h' x hx).trans (h x hx)

theorem Frame.Keeps.mono {temps temps' : Set Nat} (h : Frame.Keeps temps fr fr')
    (hsub : temps ⊆ temps') : Frame.Keeps temps' fr fr' :=
  fun x hx => h x fun hx' => hx (hsub hx')

/-- Binding a temporary of the lowered frame. -/
theorem Frame.bindTemp (hs : s.Paired sigs p t) (hfr : Frame.Paired bound p t fr fr')
    {x : LocalId} (hx : bound ≤ x.index) (w : Value) :
    ∃ fr₁ t₁, fr'.bind x w t = .ok fr₁ t₁ ∧ t.Extends t₁ ∧ s.Paired sigs p t₁ ∧
      Frame.Paired bound p t₁ fr fr₁ ∧ Frame.Keeps {x.index} fr' fr₁ ∧
        ∃ b, fr₁.cells.lookup x = some b ∧ t.cells.size ≤ b.index ∧ t₁.cells[b.index]? = some w := by
  have hext := Store.Extends.pushCell t w
  have hfr₁ := hfr.advance (hext.advances p)
  refine ⟨_, _, rfl, hext, hs.extend hext, ⟨fun y a hy ha => ?_, fun y b hy hb => ?_⟩, ?_,
    ⟨t.cells.size⟩, by simp [Frame.lookup_setCell], le_rfl, by simp⟩
  · have hyx : y ≠ x := by
      rintro rfl
      omega
    simp only [Frame.lookup_setCell, if_neg hyx]
    exact hfr₁.locals y a hy ha
  · simp only [Frame.lookup_setCell] at hb
    split at hb
    · cases hb
      exact ⟨by simp, hs.freeCell le_rfl⟩
    · exact hfr₁.temps y b hy hb
  · intro y hy
    have hyx : y ≠ x := fun h => hy (h ▸ rfl)
    simp only [Frame.lookup_setCell, if_neg hyx]

/-- The value of a temporary. -/
theorem Frame.read_of_lookup {x : LocalId} {b : CellAddr} {w : Value}
    (hb : fr.cells.lookup x = some b) (hw : t.cells[b.index]? = some w) :
    fr.read x t = .ok w t := by
  rw [Frame.read, Frame.cell_of_lookup hb, pure_bind]
  simp [Run.readCell, hw]

end Rivulet.Machine
