import Rivulet.Proofs.Machine.Grafting

set_option autoImplicit false

/-! # Runs behind a store

Lowered code does behind another store what it does alone. The walk goes over tame code. Most of it
only deals with what can be seen; the exception is an element loop with the binding in front of it.
From the binding to the end of the loop the frame knows a hidden cell (`Frame.Filling`), and the loop
is the only code that runs meanwhile, apart from the calls that it makes, and these cannot reach the
cell. -/

namespace Rivulet.Machine

open Ir

variable {s₀ : Store} {V V' V'' : View} {s t u : Store} {fr : Frame}

/-! ## Element loops -/

/-- A frame whose local `out` is being filled. Its cell and the sequence in it are hidden, and they are
newer than the store `s` with the view `V`, where the binding began. -/
structure Frame.Filling (fr : Frame) (V : View) (s : Store) (out : LocalId) (V' : View) (t : Store) :
    Prop where
  others : ∀ x c, fr.cells.lookup x = some c → x ≠ out → V'.cells c.index
  slot : ∃ (c : CellAddr) (a : SliceAddr), fr.cells.lookup out = some c ∧ s.cells.size ≤ c.index ∧
    ¬ V'.cells c.index ∧ t.cells[c.index]? = some (.slice a) ∧ s.slices.size ≤ a.index ∧
    a.index < t.slices.size ∧ V'.rank a.index = none
  clock : V'.clock < t.slices.size
  room : V'.clock + s.slices.size < V.clock + t.slices.size

/-- What happens meanwhile does not touch what is hidden. -/
theorem Frame.Filling.later {out : LocalId} (h : fr.Filling V s out V' t) (hlater : Later V' t V'' u) :
    fr.Filling V s out V'' u := by
  obtain ⟨c, a, hc, hcs, hhidden, hcell, has, hat, hrank⟩ := h.slot
  have hlt : c.index < t.cells.size := (Array.getElem?_eq_some_iff.1 hcell).1
  obtain ⟨hhidden', heq⟩ := hlater.cells hlt hhidden
  have hclock := h.clock
  have hroom := h.room
  have hmoved := hlater.clock
  exact ⟨fun x d hx hne => hlater.le.cells (h.others x d hx hne),
    ⟨c, a, hc, hcs, hhidden', heq.trans hcell, has, Nat.lt_of_lt_of_le hat hlater.slices_size,
      hlater.slices hat hrank⟩, by omega, by omega⟩

/-- Another local gets a cell that can be seen. -/
theorem Frame.Filling.setCell {out x : LocalId} (h : fr.Filling V s out V' t) (hne : x ≠ out)
    {c : CellAddr} (hc : V'.cells c.index) {fr' : Frame} (hcells : fr'.cells = Frame.setCell x c fr.cells) :
    fr'.Filling V s out V' t := by
  obtain ⟨d, a, hd, hrest⟩ := h.slot
  refine ⟨fun y e hy hyne => ?_, ⟨d, a, ?_, hrest⟩, h.clock, h.room⟩
  · rw [hcells, Frame.lookup_setCell] at hy
    split at hy
    · cases hy
      exact hc
    · exact h.others y e hy hyne
  · rw [hcells, Frame.lookup_setCell, if_neg hne.symm]
    exact hd

/-- A local is bound to a new sequence. Both the sequence and the cell are hidden. -/
theorem Frame.bind_newSlice_grafted (ht : t.Shows V') (hlater : Later V s V' t) (hfr : fr.Visible V')
    (out : LocalId) {vs : Array Value} (hvs : ∀ v ∈ vs, v.Visible V') (origin : Option Origin) :
    Grafted s₀ V' t (fun V'' u fr₁ fr₁' => fr₁.Filling V s out V'' u ∧ fr₁' = fr₁.shift s₀.offset)
      ((Run.newSlice vs origin >>= fun v => fr.bind out v) t)
      ((Run.newSlice (vs.map (Value.shift s₀.offset)) (origin.map (Origin.shift s₀.offset)) >>=
        fun v => (fr.shift s₀.offset).bind out v) (s₀.graft t)) := by
  rw [Run.bind_apply, Run.bind_apply]
  unfold Run.newSlice
  by_cases hfit : vs.size < Slice.capacity
  · have hfit' : (vs.map (Value.shift s₀.offset)).size < Slice.capacity := by simpa using hfit
    rw [dif_pos hfit, dif_pos hfit']
    let sl : Slice := ⟨vs, origin, hfit⟩
    let u : Store := { t with slices := t.slices.push sl }
    let u' : Store := { s₀.graft t with slices := (s₀.graft t).slices.push (sl.shift s₀.offset) }
    have hsize : u.slices.size = t.slices.size + 1 := Array.size_push _
    have hgraft : s₀.graft u = u' := s₀.graft_pushSlice t sl
    have haddr : (Value.slice ⟨(s₀.graft t).slices.size⟩) =
        (Value.slice ⟨t.slices.size⟩).shift s₀.offset :=
      congrArg Value.slice (Store.size_slices_graft s₀ t)
    -- first the sequence, then the cell that holds it, neither of which the view shows
    obtain ⟨hushows, hulater⟩ := ht.pushHiddenSlice sl hvs
    obtain ⟨hshows, hlater'⟩ := hushows.pushHiddenCell (.slice ⟨t.slices.size⟩)
    obtain ⟨fr₁, hbind, hbind', hcells⟩ := fr.bind_shift s₀ u out (.slice ⟨t.slices.size⟩)
    show Grafted s₀ V' t _ (fr.bind out (.slice ⟨t.slices.size⟩) u)
      ((fr.shift s₀.offset).bind out (.slice ⟨(s₀.graft t).slices.size⟩) u')
    rw [hbind, haddr, ← hgraft, hbind']
    refine .ok (hulater.trans hlater') hshows ⟨⟨fun x c hx hne => ?_, ?_, ?_, ?_⟩, rfl⟩
    · rw [hcells, Frame.lookup_setCell, if_neg hne] at hx
      exact hfr x c hx
    · refine ⟨⟨t.cells.size⟩, ⟨t.slices.size⟩, ?_, hlater.cells_size, ht.not_cells_size, ?_,
        hlater.slices_size, ?_, ht.rank_size⟩
      · rw [hcells, Frame.lookup_setCell, if_pos rfl]
      · exact Array.getElem?_push_size
      · exact hsize ▸ Nat.lt_succ_self _
    · exact hsize ▸ Nat.lt_succ_of_le ht.clock
    · have hclock := hlater.clock
      show V'.clock + s.slices.size < V.clock + u.slices.size
      omega
  · have hfit' : ¬ (vs.map (Value.shift s₀.offset)).size < Slice.capacity := by simpa using hfit
    rw [dif_neg hfit, dif_neg hfit']
    trivial

/-- **Opening.** The binding in front of an element loop makes a new sequence. -/
theorem Frame.bind_allocate_grafted (ht : t.Shows V') (hlater : Later V s V' t) (hfr : fr.Visible V')
    (out : LocalId) (ty : Ir.Ty) (n : Int64) (origin : Origin) :
    Grafted s₀ V' t (fun V'' u fr₁ fr₁' => fr₁.Filling V s out V'' u ∧ fr₁' = fr₁.shift s₀.offset)
      ((allocate ty n origin >>= fun v => fr.bind out v) t)
      ((allocate ty n (origin.shift s₀.offset) >>= fun v => (fr.shift s₀.offset).bind out v)
        (s₀.graft t)) := by
  unfold allocate
  split
  · exact .stop _
  have hnone : ∀ v ∈ (#[] : Array Value), v.Visible V' := by simp
  have hfill : Grafted s₀ V' t _ (fill ty n.toInt.toNat #[] t) _ := fill_grafted ty n.toInt.toNat ht hnone
  rw [Array.map_empty] at hfill
  rw [bind_assoc, bind_assoc]
  refine .bind hfill fun V₁ s₁ vs ws hlater₁ hs₁ hvs => ?_
  obtain ⟨hvisible, rfl⟩ := hvs
  exact Frame.bind_newSlice_grafted hs₁ (hlater.trans hlater₁) (hfr.mono hlater₁.le) out hvisible
    (some origin)

/-- A local of its own for each round. -/
theorem Frame.Filling.bind_grafted {out x : LocalId} (h : fr.Filling V s out V' t) (ht : t.Shows V')
    (hne : x ≠ out) {v : Value} (hv : v.Visible V') :
    Grafted s₀ V' t (fun V'' u fr₁ fr₁' => fr₁.Filling V s out V'' u ∧ fr₁' = fr₁.shift s₀.offset)
      (fr.bind x v t) ((fr.shift s₀.offset).bind x (v.shift s₀.offset) (s₀.graft t)) := by
  obtain ⟨fr₁, hbind, hbind', hcells⟩ := fr.bind_shift s₀ t x v
  obtain ⟨hshows, hlater⟩ := ht.pushCell hv
  rw [hbind, hbind']
  exact .ok hlater hshows ⟨(h.later hlater).setCell hne (.inl rfl) hcells, rfl⟩

/-- The hidden sequence is read from its local. -/
theorem Frame.Filling.read_grafted {out : LocalId} (h : fr.Filling V s out V' t) (ht : t.Shows V') :
    Grafted s₀ V' t
      (fun V'' u v w => ∃ a, v = .slice a ∧ w = .slice (a.shift s₀.offset) ∧ a.index < u.slices.size ∧
        V''.rank a.index = none)
      (fr.read out t) ((fr.shift s₀.offset).read out (s₀.graft t)) := by
  obtain ⟨c, a, hc, -, -, hcell, -, hlt, hrank⟩ := h.slot
  have hc' : (fr.shift s₀.offset).cells.lookup out = some (c.shift s₀.offset) := by
    rw [Frame.shift, lookup_shiftCells, hc]
    rfl
  rw [Frame.read, Frame.read, Frame.cell_of_lookup hc, Frame.cell_of_lookup hc', pure_bind, pure_bind]
  refine .ok (.refl V' t) ht ⟨a, ?_, ?_, hlt, hrank⟩
  · rw [hcell]
    rfl
  · rw [Store.getElem?_cells_graft, hcell]
    rfl

/-- An element of the hidden sequence is overwritten. -/
theorem writeItem_grafted (ht : t.Shows V') {a : SliceAddr} (ha : V'.rank a.index = none) (i : Nat)
    {v : Value} (hv : v.Visible V') :
    Grafted s₀ V' t (fun _ _ _ _ => True) (Run.writeItem a i v t)
      (Run.writeItem (a.shift s₀.offset) i (v.shift s₀.offset) (s₀.graft t)) := by
  obtain ⟨hshows, hlater⟩ := ht.writeItem ha i hv
  exact ⟨(s₀.graft_writeItem t a i v).symm, V', hlater, hshows, trivial⟩

/-- **Closing.** When the loop is over, the sequence and its cell are revealed. -/
theorem Frame.Filling.visible {out : LocalId} (h : fr.Filling V s out V' t) (hlater : Later V s V' t)
    (ht : t.Shows V') : ∃ V'', Later V s V'' t ∧ t.Shows V'' ∧ fr.Visible V'' := by
  obtain ⟨c, a, hc, hcs, -, hcell, has, hlt, hrank⟩ := h.slot
  have hle : V'.Le ((V'.addSlice a.index).addCell c.index) :=
    (View.le_addSlice hrank).trans (View.le_addCell _ _)
  refine ⟨_, hlater.reveal hcs has hrank h.room, ht.reveal hcell hrank hlt h.clock, fun x d hx => ?_⟩
  by_cases hxo : x = out
  · subst hxo
    rw [hc] at hx
    cases hx
    exact .inl rfl
  · exact hle.cells (h.others x d hx hxo)

/-- Lowered code, run by a machine for lowered code. -/
structure Code.Tame (code : Code) : Prop where
  maps : code.maps = .refuse
  bodies : ∀ name f, code.functions.lookup name = some f → ∃ A, Stmt.TameBlock A none f.body

/-- An engine does behind the store `s₀` what it does alone. -/
structure Engine.Grafts (m : Engine) (s₀ : Store) : Prop where
  maps : m.maps = .refuse
  call : ∀ {V : View} {s : Store} {f : Value} {vs : List Value}, s.Shows V → f.Visible V →
    (∀ v ∈ vs, v.Visible V) →
    Grafted s₀ V s (SeenValue s₀) (m.call f vs s)
      (m.call (f.shift s₀.offset) (vs.map (Value.shift s₀.offset)) (s₀.graft s))

/-- How a piece of code ended, alone and behind the store `s₀`. -/
structure SeenFlow (s₀ : Store) (V : View) (_ : Store) (p p' : Flow × Frame) : Prop where
  shift : p' = (p.1.shift s₀.offset, p.2.shift s₀.offset)
  value : ∀ v, p.1 = .return v → v.Visible V
  frame : p.2.Visible V

/-- The local `out` of the frame is still being filled, and the run goes on. -/
structure SeenFilling (s₀ : Store) (V : View) (s : Store) (out : LocalId) (V' : View) (t : Store)
    (p p' : Flow × Frame) : Prop where
  shift : p' = (.next, p.2.shift s₀.offset)
  next : p.1 = .next
  frame : p.2.Filling V s out V' t

/-- **Opening**, as a statement. -/
theorem alloc_grafted {m : Engine} {out len : LocalId} {ty : Ir.Ty} {o : Site} {i j : Info}
    (hs : s.Shows V) (hfr : fr.Visible V) :
    Grafted s₀ V s (SeenFilling s₀ V s out) (exec m fr (.bind out (.alloc ty (.local len i) o j)) s)
      (exec m (fr.shift s₀.offset) (.bind out (.alloc ty (.local len i) o j)) (s₀.graft s)) := by
  simp only [exec, eval, bind_assoc]
  refine .bind (Frame.read_grafted hs fun c hc => hfr len c hc) fun V₁ s₁ v v' hlater₁ hs₁ hv => ?_
  obtain ⟨hv, rfl⟩ := hv
  refine .bind (asInt_grafted hs₁ hv) fun V₂ s₂ n n' hlater₂ hs₂ hn => ?_
  obtain rfl : n' = n := hn
  have hto := hlater₁.trans hlater₂
  rw [← bind_assoc, ← bind_assoc]
  refine .bind (Frame.bind_allocate_grafted hs₂ hto (hfr.mono hto.le) out ty n' ⟨o, fr.activation⟩) ?_
  rintro V₃ s₃ fr₃ _ _ hs₃ ⟨h, rfl⟩
  exact .pure hs₃ ⟨rfl, rfl, h⟩

section Loop

variable {m : Engine} (hm : m.Grafts s₀) {out x len fn seq : LocalId} {i₃ i₄ i₅ i₆ i₇ i₈ i₉ : Info}

include hm

/-- The callable is applied to an element. The hidden sequence plays no part in it. -/
theorem element_grafted (hothers : ∀ y c, fr.cells.lookup y = some c → y ≠ out → V.cells c.index)
    (hs : s.Shows V) (hfn : fn ≠ out) (hseq : seq ≠ out) (hx : x ≠ out) :
    Grafted s₀ V s (SeenValue s₀)
      (eval m fr (.call (.local fn i₅) [.index (.local seq i₆) (.local x i₇) .elided i₈] i₉) s)
      (eval m (fr.shift s₀.offset)
        (.call (.local fn i₅) [.index (.local seq i₆) (.local x i₇) .elided i₈] i₉) (s₀.graft s)) := by
  have hread : ∀ {V' : View} {t : Store} {y : LocalId}, Later V s V' t → t.Shows V' → y ≠ out →
      Grafted s₀ V' t (SeenValue s₀) (fr.read y t) ((fr.shift s₀.offset).read y (s₀.graft t)) :=
    fun hlater ht hy => Frame.read_grafted ht fun c hc => hlater.le.cells (hothers _ c hc hy)
  simp only [eval, evalList, bind_assoc, pure_bind]
  refine .bind (hread (.refl V s) hs hfn) fun V₁ s₁ f f' hlater₁ hs₁ hf => ?_
  refine .bind (hread hlater₁ hs₁ hseq) fun V₂ s₂ xs xs' hlater₂ hs₂ hxs => ?_
  have hto₂ := hlater₁.trans hlater₂
  refine .bind (hread hto₂ hs₂ hx) fun V₃ s₃ p p' hlater₃ hs₃ hp => ?_
  have hto₃ := hlater₂.trans hlater₃
  obtain ⟨hf, rfl⟩ := hf
  obtain ⟨hxs, rfl⟩ := hxs
  obtain ⟨hp, rfl⟩ := hp
  refine .bind (asInt_grafted hs₃ hp) fun V₄ s₄ k k' hlater₄ hs₄ hk => ?_
  refine .bind (asSlice_grafted hs₄ ((hxs.mono hlater₃.le).mono hlater₄.le)) ?_
  intro V₅ s₅ b b' hlater₅ hs₅ hb
  obtain rfl : k' = k := hk
  obtain ⟨-, rfl⟩ := hb
  refine .bind (sliceLength_grafted hs₅ b) fun V₆ s₆ n n' hlater₆ hs₆ hn => ?_
  obtain rfl : n' = n := hn
  refine .bind (position_grafted hs₆ k' n' .elided) fun V₇ s₇ j j' hlater₇ hs₇ hj => ?_
  obtain rfl : j' = j := hj
  refine .bind (readItem_grafted hs₇ b j') fun V₈ s₈ v v' hlater₈ hs₈ hv => ?_
  obtain ⟨hv, rfl⟩ := hv
  -- the callable is applied in a later store, where it can still be seen
  have hto := ((((hto₃.trans hlater₄).trans hlater₅).trans hlater₆).trans hlater₇).trans hlater₈
  exact hm.call hs₈ (hf.mono hto.le) (by simpa using hv)

/-- **A round of an element loop.** The callable is applied to an element, and the result is stored in
the hidden sequence. -/
theorem round_grafted (h : fr.Filling V s out V' t) (ht : t.Shows V') (hfn : fn ≠ out)
    (hseq : seq ≠ out) (hx : x ≠ out) :
    Grafted s₀ V' t (SeenFilling s₀ V s out)
      (exec m fr (.store (.local out i₃) (.local x i₄)
        (.call (.local fn i₅) [.index (.local seq i₆) (.local x i₇) .elided i₈] i₉) .elided) t)
      (exec m (fr.shift s₀.offset) (.store (.local out i₃) (.local x i₄)
        (.call (.local fn i₅) [.index (.local seq i₆) (.local x i₇) .elided i₈] i₉) .elided)
        (s₀.graft t)) := by
  rw [exec, exec, eval, eval, eval, eval]
  refine .bind (h.read_grafted ht) ?_
  rintro V₁ s₁ _ _ hlater₁ hs₁ ⟨a, rfl, rfl, hlt, hrank⟩
  have h₁ := h.later hlater₁
  refine .bind (Frame.read_grafted hs₁ fun c hc => h₁.others x c hc hx) ?_
  rintro V₂ s₂ p _ hlater₂ hs₂ ⟨hp, rfl⟩
  have h₂ := h₁.later hlater₂
  refine .bind (element_grafted hm h₂.others hs₂ hfn hseq hx) fun V₃ s₃ v v' hlater₃ hs₃ hv => ?_
  obtain ⟨hv, rfl⟩ := hv
  -- the value in front of the elements is the hidden sequence itself
  have hslice : ∀ b : SliceAddr, asSlice (.slice b) = pure b := fun _ => rfl
  rw [hslice, hslice, pure_bind, pure_bind]
  refine .bind (asInt_grafted hs₃ (hp.mono hlater₃.le)) fun V₄ s₄ k k' hlater₄ hs₄ hk => ?_
  obtain rfl : k' = k := hk
  refine .bind (sliceLength_grafted hs₄ a) fun V₅ s₅ n n' hlater₅ hs₅ hn => ?_
  obtain rfl : n' = n := hn
  refine .bind (position_grafted hs₅ k' n' .elided) fun V₆ s₆ j j' hlater₆ hs₆ hj => ?_
  obtain rfl : j' = j := hj
  have hto := (hlater₄.trans hlater₅).trans hlater₆
  have hrank' := ((hlater₂.trans hlater₃).trans hto).slices hlt hrank
  refine .bind (writeItem_grafted hs₆ hrank' j' (hv.mono hto.le)) fun V₇ s₇ _ _ hlater₇ hs₇ _ => ?_
  exact .pure hs₇ ⟨rfl, rfl, ((h₂.later hlater₃).later hto).later hlater₇⟩

/-- **An element loop**, up to its end. -/
theorem forLoop_grafted (n : Nat) {i : Int64} (h : fr.Filling V s out V' t) (ht : t.Shows V')
    (hfn : fn ≠ out) (hseq : seq ≠ out) (hx : x ≠ out) :
    let body : List Stmt := [.store (.local out i₃) (.local x i₄)
      (.call (.local fn i₅) [.index (.local seq i₆) (.local x i₇) .elided i₈] i₉) .elided]
    Grafted s₀ V' t (SeenFilling s₀ V s out)
      (forLoop x (fun fr => execBlock m fr body) n i fr t)
      (forLoop x (fun fr => execBlock m fr body) n i (fr.shift s₀.offset) (s₀.graft t)) := by
  intro body
  induction n generalizing V' t fr i with
  | zero => exact .pure ht ⟨rfl, rfl, h⟩
  | succ n ih =>
      rw [forLoop, forLoop]
      refine .bind (h.bind_grafted ht hx (v := .int i) trivial) fun V₁ s₁ fr₁ fr₁' _ hs₁ h₁ => ?_
      obtain ⟨h₁, rfl⟩ := h₁
      simp only [body, execBlock, bind_assoc]
      refine .bind (round_grafted hm h₁ hs₁ hfn hseq hx) fun V₂ s₂ p p' _ hs₂ hp => ?_
      obtain ⟨flow, fr₂⟩ := p
      obtain ⟨rfl, rfl, h₂⟩ := hp
      exact ih h₂ hs₂

theorem for_grafted {first last : Expr} {body : List Stmt}
    (hloop : Stmt.ElementLoop out x first last body) (h : fr.Filling V s out V' t) (ht : t.Shows V') :
    Grafted s₀ V' t (SeenFilling s₀ V s out) (exec m fr (.for x first last body) t)
      (exec m (fr.shift s₀.offset) (.for x first last body) (s₀.graft t)) := by
  obtain ⟨len, fn, seq, i₁, i₂, i₃, i₄, i₅, i₆, i₇, i₈, i₉, rfl, rfl, rfl, hlen, hfn, hseq, hx⟩ := hloop
  have hzero : asInt (.int 0) = pure 0 := rfl
  rw [exec, exec, eval, eval, eval, eval, pure_bind, pure_bind, hzero, pure_bind, pure_bind]
  refine .bind (Frame.read_grafted ht fun c hc => h.others len c hc hlen) ?_
  rintro V₁ s₁ v _ hlater₁ hs₁ ⟨hv, rfl⟩
  refine .bind (asInt_grafted hs₁ hv) fun V₂ s₂ n n' hlater₂ hs₂ hn => ?_
  obtain rfl : n' = n := hn
  exact forLoop_grafted hm _ (h.later (hlater₁.trans hlater₂)) hs₂ hfn hseq hx

/-- **An element loop** behind the binding in front of it. At its end all can be seen. -/
theorem elementLoop_grafted {first last : Expr} {body : List Stmt}
    (hloop : Stmt.ElementLoop out x first last body) (h : fr.Filling V s out V' t)
    (hlater : Later V s V' t) (ht : t.Shows V') :
    Grafted s₀ V s (SeenFlow s₀) (exec m fr (.for x first last body) t)
      (exec m (fr.shift s₀.offset) (.for x first last body) (s₀.graft t)) := by
  have hfilled := (for_grafted hm hloop h ht).of_later hlater
  refine hfilled.settle fun V'' u p p' hlater' hu hp => ?_
  obtain ⟨rfl, hnext, hp⟩ := hp
  -- the store stays as it is; only the view of it changes, which now has the sequence and its cell
  obtain ⟨V₃, hlater₃, hshows, hvisible⟩ := hp.visible hlater' hu
  exact ⟨V₃, hlater₃, hshows, by rw [hnext]; rfl, by simp [hnext], hvisible⟩

end Loop

/-! ## The walk -/

/-- What a frame has to be, behind a statement that has left `o` to be filled. -/
def Frame.Ready (fr : Frame) (V : View) (s : Store) (o : Option LocalId) (V' : View) (t : Store) :
    Prop :=
  match o with
  | none => fr.Visible V'
  | some out => fr.Filling V s out V' t

theorem whileLoop_grafted {cond : Frame → Run Bool} {block : Frame → Run (Flow × Frame)}
    (hcond : ∀ {V s fr}, s.Shows V → fr.Visible V →
      Grafted s₀ V s Same (cond fr s) (cond (fr.shift s₀.offset) (s₀.graft s)))
    (hblock : ∀ {V s fr}, s.Shows V → fr.Visible V →
      Grafted s₀ V s (SeenFlow s₀) (block fr s) (block (fr.shift s₀.offset) (s₀.graft s)))
    (k : Nat) (hs : s.Shows V) (hfr : fr.Visible V) :
    Grafted s₀ V s (SeenFlow s₀) (whileLoop cond block k fr s)
      (whileLoop cond block k (fr.shift s₀.offset) (s₀.graft s)) := by
  induction k generalizing V s fr with
  | zero => trivial
  | succ k ih =>
      rw [whileLoop, whileLoop]
      refine .bind (hcond hs hfr) fun V₁ s₁ b b' hlater₁ hs₁ hb => ?_
      obtain rfl : b' = b := hb
      have hfr₁ := hfr.mono hlater₁.le
      cases b' with
      | false => exact .pure hs₁ ⟨rfl, by simp, hfr₁⟩
      | true =>
          refine .bind (hblock hs₁ hfr₁) fun V₂ s₂ p p' _ hs₂ hp => ?_
          obtain ⟨flow, fr₂⟩ := p
          obtain ⟨rfl, hvalue, hfr₂⟩ := hp
          cases flow with
          | next => exact ih hs₂ hfr₂
          | «break» => exact .pure hs₂ ⟨rfl, by simp, hfr₂⟩
          | «return» v => exact .pure hs₂ ⟨rfl, hvalue, hfr₂⟩

/-- The rest of a block, behind a statement that ended like this. -/
theorem rest_grafted {m : Engine} {ss : List Stmt} {p p' : Flow × Frame}
    (hrest : p.2.Visible V → Grafted s₀ V s (SeenFlow s₀) (execBlock m p.2 ss s)
      (execBlock m (p.2.shift s₀.offset) ss (s₀.graft s)))
    (hs : s.Shows V) (hp : SeenFlow s₀ V s p p') :
    Grafted s₀ V s (SeenFlow s₀)
      ((match p.1 with | .next => execBlock m p.2 ss | flow => pure (flow, p.2) : Run _) s)
      ((match p'.1 with | .next => execBlock m p'.2 ss | flow => pure (flow, p'.2) : Run _)
        (s₀.graft s)) := by
  obtain ⟨flow, fr⟩ := p
  obtain ⟨rfl, hvalue, hfr⟩ := hp
  cases flow with
  | next => exact hrest hfr
  | «break» => exact .pure hs ⟨rfl, by simp, hfr⟩
  | «return» v => exact .pure hs ⟨rfl, hvalue, hfr⟩

section Walk

variable {m : Engine} {A : LocalId → Prop}

mutual

/-- **Evaluating lowered code behind a store.** -/
theorem eval_grafted (hm : m.Grafts s₀) :
    ∀ {e : Expr} {V : View} {s : Store} {fr : Frame}, e.Tame A → s.Shows V →
    fr.Visible V →
      Grafted s₀ V s (SeenValue s₀) (eval m fr e s) (eval m (fr.shift s₀.offset) e (s₀.graft s))
  | .const c _, V, s, fr, _, hs, _ => by
      simp only [eval]
      cases c <;> exact .pure hs (Value.Scalar.seen trivial)
  | .local x _, V, s, fr, _, hs, hfr => Frame.read_grafted hs fun c hc => hfr x c hc
  | .function _ _, V, s, fr, _, hs, _ | .builtin _ _, V, s, fr, _, hs, _ => .pure hs ⟨trivial, rfl⟩
  | .unary op e _, V, s, fr, he, hs, hfr => by
      simp only [eval]
      refine .bind (eval_grafted hm (e := e) he hs hfr) fun V₁ s₁ v v' _ hs₁ hv => ?_
      obtain ⟨hv, rfl⟩ := hv
      exact unary_grafted hs₁ op hv
  | .binary op l r _ _ i, V, s, fr, he, hs, hfr => by
      by_cases hmap : op = .map
      · simp only [eval, if_pos hmap, hm.maps]
        exact .stop _
      by_cases hlogic : op = .and ∨ op = .or
      · simp only [eval_logical hlogic]
        refine .bind (eval_grafted hm he.1 hs hfr) fun V₁ s₁ v v' hlater₁ hs₁ hv => ?_
        obtain ⟨hv, rfl⟩ := hv
        refine .bind (asBool_grafted hs₁ hv) fun V₂ s₂ b b' hlater₂ hs₂ hb => ?_
        obtain rfl : b' = b := hb
        cases needsRight op b' with
        | false => exact .pure hs₂ (Value.Scalar.seen (v := .bool b') trivial)
        | true =>
            refine .bind (eval_grafted hm he.2 hs₂ (hfr.mono (hlater₁.trans hlater₂).le)) ?_
            rintro V₃ s₃ w _ _ hs₃ ⟨hw, rfl⟩
            refine .bind (asBool_grafted hs₃ hw) fun V₄ s₄ c c' _ hs₄ hc => ?_
            obtain rfl : c' = c := hc
            exact .pure hs₄ (Value.Scalar.seen (v := .bool c') trivial)
      · simp only [eval_operator hmap hlogic]
        refine .bind (eval_grafted hm he.1 hs hfr) fun V₁ s₁ v v' hlater₁ hs₁ hv => ?_
        refine .bind (eval_grafted hm he.2 hs₁ (hfr.mono hlater₁.le))
          fun V₂ s₂ w w' hlater₂ hs₂ hw => ?_
        obtain ⟨hv, rfl⟩ := hv
        obtain ⟨hw, rfl⟩ := hw
        exact binary_grafted hs₂ op (hv.mono hlater₂.le) hw
  | .call f as _, V, s, fr, he, hs, hfr => by
      simp only [eval]
      refine .bind (eval_grafted hm he.1 hs hfr) fun V₁ s₁ v v' hlater₁ hs₁ hv => ?_
      refine .bind (evalList_grafted hm he.2 hs₁ (hfr.mono hlater₁.le)) ?_
      intro V₂ s₂ vs vs' hlater₂ hs₂ hvs
      obtain ⟨hv, rfl⟩ := hv
      obtain ⟨hvs, rfl⟩ := hvs
      exact hm.call hs₂ (hv.mono hlater₂.le) hvs
  | .index e p b _, V, s, fr, he, hs, hfr => by
      simp only [eval]
      refine .bind (eval_grafted hm he.1 hs hfr) fun V₁ s₁ v v' hlater₁ hs₁ hv => ?_
      refine .bind (eval_grafted hm he.2 hs₁ (hfr.mono hlater₁.le))
        fun V₂ s₂ w w' hlater₂ hs₂ hw => ?_
      obtain ⟨hv, rfl⟩ := hv
      obtain ⟨hw, rfl⟩ := hw
      refine .bind (asInt_grafted hs₂ hw) fun V₃ s₃ k k' hlater₃ hs₃ hk => ?_
      obtain rfl : k' = k := hk
      refine .bind (asSlice_grafted hs₃ (hv.mono (hlater₂.trans hlater₃).le)) ?_
      rintro V₄ s₄ a _ _ hs₄ ⟨-, rfl⟩
      refine .bind (sliceLength_grafted hs₄ a) fun V₅ s₅ n n' _ hs₅ hn => ?_
      obtain rfl : n' = n := hn
      refine .bind (position_grafted hs₅ k' n' b) fun V₆ s₆ j j' _ hs₆ hj => ?_
      obtain rfl : j' = j := hj
      exact readItem_grafted hs₆ a j'
  | .len e _, V, s, fr, he, hs, hfr => by
      simp only [eval]
      refine .bind (eval_grafted hm (e := e) he hs hfr) fun V₁ s₁ v v' _ hs₁ hv => ?_
      obtain ⟨hv, rfl⟩ := hv
      have hvs : ∀ w ∈ [v], w.Visible V₁ := by simpa using hv
      exact builtin_grafted hs₁ .len hvs
  | .slice es o _, V, s, fr, he, hs, hfr => by
      simp only [eval]
      have hes : Expr.TameList A es := he
      refine .bind (evalList_grafted hm hes hs hfr) fun V₁ s₁ vs vs' _ hs₁ hvs => ?_
      obtain ⟨hvs, rfl⟩ := hvs
      rw [← List.map_toArray]
      exact newSlice_grafted hs₁ (some ⟨o, fr.activation⟩) (by simpa using hvs)
  | .closure ps _ cs b _, V, s, fr, he, hs, hfr => by
      simp only [eval]
      refine .bind (captureCells_grafted hs hfr cs) fun V₁ s₁ env env' _ hs₁ henv => ?_
      obtain ⟨henv, rfl⟩ := henv
      -- the identity of a closure is counted in the store, so it is shifted with the store
      refine .bind (newClosure_grafted hs₁) fun V₂ s₂ i i' hlater₂ hs₂ hi => .pure hs₂ ⟨?_, ?_⟩
      · exact ⟨⟨A, he⟩, fun p hp => hlater₂.le.cells (henv p hp)⟩
      · rw [hi]
        rfl

theorem evalList_grafted (hm : m.Grafts s₀) :
    ∀ {es : List Expr} {V : View} {s : Store} {fr : Frame}, Expr.TameList A es →
    s.Shows V → fr.Visible V →
      Grafted s₀ V s (SeenValues s₀) (evalList m fr es s)
        (evalList m (fr.shift s₀.offset) es (s₀.graft s))
  | [], V, s, fr, _, hs, _ => .pure hs ⟨by simp, rfl⟩
  | e :: es, V, s, fr, he, hs, hfr => by
      simp only [evalList]
      refine .bind (eval_grafted hm he.1 hs hfr) fun V₁ s₁ v v' hlater₁ hs₁ hv => ?_
      refine .bind (evalList_grafted hm he.2 hs₁ (hfr.mono hlater₁.le)) ?_
      intro V₂ s₂ vs vs' hlater₂ hs₂ hvs
      obtain ⟨hv, rfl⟩ := hv
      obtain ⟨hvs, rfl⟩ := hvs
      exact .pure hs₂ ⟨List.forall_mem_cons.2 ⟨hv.mono hlater₂.le, hvs⟩, rfl⟩

end

variable (hm : m.Grafts s₀)

include hm

mutual

/-- **Executing a lowered statement behind a store**, if it is no part of an element loop. -/
theorem exec_grafted : ∀ {c : Stmt} {V : View} {s : Store} {fr : Frame}, c.Tame A none →
    c.opened = none → s.Shows V → fr.Visible V →
      Grafted s₀ V s (SeenFlow s₀) (exec m fr c s) (exec m (fr.shift s₀.offset) c (s₀.graft s))
  | .bind x e, V, s, fr, hc, ho, hs, hfr => by
      -- a binding of a new sequence opens an element loop, so it is not meant here
      obtain ⟨-, he | ⟨ty, len, i, o, j, rfl⟩⟩ := hc
      · simp only [exec]
        refine .bind (eval_grafted hm he hs hfr) fun V₁ s₁ v v' hlater₁ hs₁ hv => ?_
        obtain ⟨hv, rfl⟩ := hv
        refine .bind (Frame.bind_grafted hs₁ (hfr.mono hlater₁.le) x hv) ?_
        rintro V₂ s₂ fr₂ _ _ hs₂ ⟨hfr₂, rfl⟩
        exact .pure hs₂ ⟨rfl, by simp, hfr₂⟩
      · cases ho
  | .assign x e, V, s, fr, hc, _, hs, hfr => by
      simp only [exec]
      refine .bind (eval_grafted hm hc.2.2 hs hfr) fun V₁ s₁ v v' hlater₁ hs₁ hv => ?_
      obtain ⟨hv, rfl⟩ := hv
      have hfr₁ := hfr.mono hlater₁.le
      refine .bind (Frame.write_grafted hs₁ hfr₁ x hv) fun V₂ s₂ _ _ hlater₂ hs₂ _ => ?_
      exact .pure hs₂ ⟨rfl, by simp, hfr₁.mono hlater₂.le⟩
  | .store _ _ _ _, _, _, _, hc, _, _, _ => hc.elim
  | .expr e, V, s, fr, hc, _, hs, hfr => by
      simp only [exec]
      refine .bind (eval_grafted hm hc.2 hs hfr) fun V₁ s₁ v v' hlater₁ hs₁ _ => ?_
      exact .pure hs₁ ⟨rfl, by simp, hfr.mono hlater₁.le⟩
  | .return es, V, s, fr, hc, _, hs, hfr => by
      simp only [exec]
      refine .bind (evalList_grafted hm hc.2 hs hfr) fun V₁ s₁ vs vs' hlater₁ hs₁ hvs => ?_
      obtain ⟨hvs, rfl⟩ := hvs
      refine .pure hs₁ ⟨?_, fun v hv => ?_, hfr.mono hlater₁.le⟩
      · rw [← Value.shift_returned]
        rfl
      · cases hv
        exact Value.visible_returned hvs
  | .if c t e, V, s, fr, hc, _, hs, hfr => by
      simp only [exec]
      refine .bind (eval_grafted hm hc.2.1 hs hfr) fun V₁ s₁ v v' hlater₁ hs₁ hv => ?_
      obtain ⟨hv, rfl⟩ := hv
      refine .bind (asBool_grafted hs₁ hv) fun V₂ s₂ b b' hlater₂ hs₂ hb => ?_
      obtain rfl : b' = b := hb
      have hfr₂ := hfr.mono (hlater₁.trans hlater₂).le
      cases b' with
      | true => exact execBlock_grafted hc.2.2.1 (.refl V₂ s₂) hs₂ hfr₂
      | false => exact execBlock_grafted hc.2.2.2 (.refl V₂ s₂) hs₂ hfr₂
  | .while c b, V, s, fr, hc, _, hs, hfr => by
      simp only [exec]
      refine whileLoop_grafted (fun {V₁ s₁ fr₁} hs₁ hfr₁ => ?_) (fun {V₁ s₁ fr₁} hs₁ hfr₁ => ?_) _
        hs hfr
      · refine .bind (eval_grafted hm hc.2.1 hs₁ hfr₁) fun V₂ s₂ v v' _ hs₂ hv => ?_
        obtain ⟨hv, rfl⟩ := hv
        exact asBool_grafted hs₂ hv
      · exact execBlock_grafted hc.2.2 (.refl V₁ s₁) hs₁ hfr₁
  | .break, V, s, fr, _, _, hs, hfr => .pure hs ⟨rfl, by simp, hfr⟩
  | .for _ _ _ _, _, _, _, hc, _, _, _ => by
      obtain ⟨out, ho, -⟩ := hc
      cases ho

/-- **Executing a lowered block behind a store.** If a binding in front has opened an element loop, the
view `V` is the one from before it. -/
theorem execBlock_grafted : ∀ {ss : List Stmt} {o : Option LocalId} {V V' : View} {s t : Store}
    {fr : Frame}, Stmt.TameBlock A o ss → Later V s V' t → t.Shows V' → fr.Ready V s o V' t →
      Grafted s₀ V s (SeenFlow s₀) (execBlock m fr ss t)
        (execBlock m (fr.shift s₀.offset) ss (s₀.graft t))
  | [], o, V, V', s, t, fr, hss, hlater, ht, hfr => by
      obtain rfl : o = none := hss
      exact .of_later hlater (.pure ht ⟨rfl, by simp, hfr⟩)
  | c :: ss, some out, V, V', s, t, fr, hss, hlater, ht, hfr => by
      -- this is the loop; at its end all can be seen, and the rest begins with the view from there
      obtain ⟨x, first, last, body, rfl, hloop⟩ := hss.1.of_opened
      simp only [execBlock]
      refine .bind (elementLoop_grafted hm hloop hfr hlater ht) fun V₁ s₁ p p' _ hs₁ hp => ?_
      exact rest_grafted (fun hfr₁ => execBlock_grafted hss.2 (.refl V₁ s₁) hs₁ hfr₁) hs₁ hp
  | c :: ss, none, V, V', s, t, fr, hss, hlater, ht, hfr => by
      simp only [execBlock]
      refine .of_later hlater ?_
      cases ho : c.opened with
      | none =>
          refine .bind (exec_grafted hss.1 ho ht hfr) fun V₁ s₁ p p' _ hs₁ hp => ?_
          have hrest : Stmt.TameBlock A none ss := ho ▸ hss.2
          exact rest_grafted (fun hfr₁ => execBlock_grafted hrest (.refl V₁ s₁) hs₁ hfr₁) hs₁ hp
      | some out =>
          -- a loop is opened, so the rest is judged from the view in front of the binding
          obtain ⟨ty, len, i, o, j, rfl⟩ := hss.1.allocates ho
          refine .bind_from (alloc_grafted ht hfr) ?_
          intro V₁ s₁ p p' hlater₁ hs₁ hp
          obtain ⟨flow, fr₁⟩ := p
          obtain ⟨rfl, rfl, hfilling⟩ := hp
          exact execBlock_grafted hss.2 hlater₁ hs₁ hfilling

end

/-- **A body in a new activation**, behind a store. -/
theorem activate_grafted {cells : List (LocalId × CellAddr)} {body : List Stmt} {vs : List Value}
    (hbody : Stmt.TameBlock A none body) (ps : List LocalId) (hs : s.Shows V)
    (hcells : ∀ x c, cells.lookup x = some c → V.cells c.index) (hvs : ∀ v ∈ vs, v.Visible V) :
    Grafted s₀ V s (SeenValue s₀) (activate m cells ps body vs s)
      (activate m (shiftCells s₀.offset cells) ps body (vs.map (Value.shift s₀.offset))
        (s₀.graft s)) := by
  unfold activate
  refine .bind (newActivation_grafted hs) fun V₁ s₁ n n' hlater₁ hs₁ hn => ?_
  obtain rfl : n' = s₀.activations + n := hn
  have hfr₁ : (Frame.mk n cells).Visible V₁ := fun x c hx => hlater₁.le.cells (hcells x c hx)
  refine .bind (Frame.bindParams_grafted hs₁ hfr₁ ps fun v hv => (hvs v hv).mono hlater₁.le) ?_
  rintro V₂ s₂ fr₂ _ _ hs₂ ⟨hfr₂, rfl⟩
  refine .bind (execBlock_grafted hm hbody (.refl V₂ s₂) hs₂ hfr₂) fun V₃ s₃ p p' _ hs₃ hp => ?_
  obtain ⟨flow, fr₃⟩ := p
  obtain ⟨rfl, hvalue, -⟩ := hp
  refine .pure hs₃ ⟨?_, flow.result_shift⟩
  cases flow with
  | next | «break» => trivial
  | «return» v => exact hvalue v rfl

/-- **A call by name**, behind a store. -/
theorem Code.callOn_grafted {code : Code} (htame : code.Tame) (name : String) {vs : List Value}
    (hs : s.Shows V) (hvs : ∀ v ∈ vs, v.Visible V) :
    Grafted s₀ V s (SeenValue s₀) (code.callOn m name vs s)
      (code.callOn m name (vs.map (Value.shift s₀.offset)) (s₀.graft s)) := by
  unfold Code.callOn
  cases hf : code.functions.lookup name with
  | none => exact .stop _
  | some f =>
      obtain ⟨A, hbody⟩ := htame.bodies name f hf
      exact activate_grafted hm hbody f.params hs (by simp) hvs

end Walk

/-- **Calls do behind a store what they do alone**, however much time they have. -/
theorem Code.grafts_engine {code : Code} (htame : code.Tame) (s₀ : Store) (time : Nat) :
    (code.engine time).Grafts s₀ := by
  -- calls that are made within a call have less time
  induction time with
  | zero => exact ⟨htame.maps, fun _ _ _ => trivial⟩
  | succ time ih =>
      refine ⟨htame.maps, fun {V s f vs} hs hf hvs => ?_⟩
      simp only [Code.engine, Code.callValue]
      refine .bind (asCallable_grafted hs hf) fun V₁ s₁ c c' hlater₁ hs₁ hc => ?_
      obtain ⟨hshown, rfl⟩ := hc
      have hvs₁ : ∀ v ∈ vs, v.Visible V₁ := fun v hv => (hvs v hv).mono hlater₁.le
      cases c with
      | function name => exact Code.callOn_grafted ih htame name hs₁ hvs₁
      | builtin b => exact builtin_grafted hs₁ b hvs₁
      | closure i ps body env =>
          -- the closure was made by tame code, and the cells that it captured can be seen
          obtain ⟨⟨A, hbody⟩, henv⟩ := hshown
          have hcall := activate_grafted ih hbody ps hs₁
            (fun x c hx => henv (x, c) (mem_of_lookup_closureCells hx)) hvs₁
          rw [← closureCells_shift] at hcall
          exact hcall

/-- **A call behind a store.** With arguments from outside, a call of lowered code does behind any
store what it does alone. -/
theorem Code.call_grafted {code : Code} (htame : code.Tame) (s₀ : Store) (time : Nat) (name : String)
    (args : List Datum) (hs : s.Shows V) :
    Grafted s₀ V s (SeenValue s₀) ((Datum.loadList args >>= callFunction code time name) s)
      ((Datum.loadList args >>= callFunction code time name) (s₀.graft s)) := by
  refine .bind (Datum.loadList_grafted args hs) fun V₁ s₁ vs vs' _ hs₁ hvs => ?_
  obtain ⟨hvisible, rfl⟩ := hvs
  exact Code.callOn_grafted (code.grafts_engine htame s₀ time) htame name hs₁ hvisible

end Rivulet.Machine
