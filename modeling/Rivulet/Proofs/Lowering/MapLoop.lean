import Rivulet.Proofs.Lowering.Hoisting

set_option autoImplicit false

/-! # The loop of a map

A map is lowered to an allocation and a loop that stores one element in every round. The invariant of
the loop is about the result sequence, which is filled while the callable may run any code: it is not
paired with anything until the loop has ended, so no code can reach it, and its first elements are
paired with those that the direct run has collected (`Filling`). One round keeps it
(`Filling.round`), and so do all rounds (`mapLoop_beside`). -/

namespace Rivulet.Machine

open Ir

/-- Two engines whose calls go side by side, the first of which runs maps directly. -/
structure Engine.Beside (sigs : Validate.Signatures) (m m' : Engine) : Prop where
  direct : m.maps = .direct
  rounds : m.rounds = m'.rounds
  call : ∀ {p : Pairing} {s t : Store} {f g : Value} {vs ws : List Value}, s.Paired sigs p t →
    f.Paired sigs p g → PairedValues sigs p vs ws →
    Machine.Beside sigs p t (fun q _ v w => v.Paired sigs q w) (m.call f vs s) (m'.call g ws t)

variable {sigs : Validate.Signatures} {p q : Pairing} {s t t' : Store} {bound : Nat}
  {fr fr' fr₁ : Frame} {m m' : Engine}

/-! ## Allocations -/

mutual

/-- A zero value adds sequences to the store at most. -/
theorem zero_extends : ∀ (u : Ir.Ty) (t : Store), ∃ v t', zero u t = .ok v t' ∧ t.Extends t'
  | .i64, t | .bool, t | .str, t | .func _ _, t | .unit, t | .invalid, t => ⟨_, t, rfl, .refl t⟩
  | .slice u, t => ⟨_, _, rfl, .pushSlice t _⟩
  | .tuple us, t => by
      obtain ⟨vs, t', hvs, hext⟩ := zeros_extends us t
      refine ⟨.tuple vs, t', ?_, hext⟩
      simp only [zero]
      rw [Run.bind_apply_of_ok hvs]
      rfl

theorem zeros_extends : ∀ (us : List Ir.Ty) (t : Store),
    ∃ vs t', zeros us t = .ok vs t' ∧ t.Extends t'
  | [], t => ⟨[], t, rfl, .refl t⟩
  | u :: us, t => by
      obtain ⟨v, t₁, hv, hext₁⟩ := zero_extends u t
      obtain ⟨vs, t₂, hvs, hext₂⟩ := zeros_extends us t₁
      refine ⟨v :: vs, t₂, ?_, hext₁.trans hext₂⟩
      simp only [zeros]
      rw [Run.bind_apply_of_ok hv, Run.bind_apply_of_ok hvs]
      rfl

end

theorem fill_extends (u : Ir.Ty) : ∀ (n : Nat) (vs : Array Value) (t : Store),
    ∃ ws t', fill u n vs t = .ok ws t' ∧ t.Extends t' ∧ ws.size = vs.size + n
  | 0, vs, t => ⟨vs, t, rfl, .refl t, rfl⟩
  | n + 1, vs, t => by
      obtain ⟨v, t₁, hv, hext₁⟩ := zero_extends u t
      obtain ⟨ws, t₂, hws, hext₂, hsize⟩ := fill_extends u n (vs.push v) t₁
      refine ⟨ws, t₂, ?_, hext₁.trans hext₂, ?_⟩
      · simp only [fill]
        rw [Run.bind_apply_of_ok hv, hws]
      · rw [hsize, Array.size_push]
        omega

/-- The words of lengths and positions. -/
theorem Word.toInt_ofNat {n : Nat} (h : n < Slice.capacity) : (Int64.ofNat n).toInt = n :=
  Int64.toInt_ofNat_of_lt (by simpa [Slice.capacity] using h)

/-- An allocation of a length that a sequence can have gives a new sequence of that length. -/
theorem allocate_extends (u : Ir.Ty) {n : Nat} (hn : n < Slice.capacity) (o : Origin) (t : Store) :
    ∃ (b : SliceAddr) (t' : Store) (y : Slice), allocate u (Int64.ofNat n) o t = .ok (.slice b) t' ∧
      t.Extends t' ∧ t.slices.size ≤ b.index ∧ t'.slices[b.index]? = some y ∧ y.items.size = n := by
  obtain ⟨ws, t₁, hws, hext, hsize⟩ := fill_extends u n #[] t
  have hlen : ws.size = n := by simpa using hsize
  have hfit : ws.size < Slice.capacity := hlen ▸ hn
  have hle : t.slices.size ≤ t₁.slices.size := by
    obtain ⟨sls, hsls⟩ := hext.slices
    simp [hsls]
  refine ⟨⟨t₁.slices.size⟩, _, ⟨ws, some o, hfit⟩, ?_, hext.trans (.pushSlice t₁ ⟨ws, some o, hfit⟩),
    hle, ?_, hlen⟩
  · unfold allocate
    rw [Word.toInt_ofNat hn, if_neg (by omega)]
    simp only [Int.toNat_natCast]
    rw [Run.bind_apply_of_ok hws]
    simp only [Run.newSlice, dif_pos hfit]
  · simp

/-! ## Temporaries that hold a value -/

/-- A local of the lowered frame holds a value. -/
def Frame.Holds (fr : Frame) (t : Store) (x : LocalId) (w : Value) : Prop :=
  ∃ b, fr.cells.lookup x = some b ∧ t.cells[b.index]? = some w

namespace Frame.Holds

variable {x : LocalId} {w : Value}

theorem read_eq (h : fr.Holds t x w) : fr.read x t = .ok w t := by
  obtain ⟨b, hb, hw⟩ := h
  exact Frame.read_of_lookup hb hw

theorem eval_eq (h : fr.Holds t x w) (m : Engine) (i : Info) :
    eval m fr (.local x i) t = .ok w t := by
  simp only [eval]
  exact h.read_eq

theorem of_eval (hfr : Frame.Paired bound p t fr fr') (hx : bound ≤ x.index) {i : Info}
    (h : eval m fr' (.local x i) t = .ok w t) : fr'.Holds t x w := by
  simp only [eval] at h
  cases hb : fr'.cells.lookup x with
  | none => simp only [Frame.read, Frame.cell, hb] at h; cases h
  | some b =>
      have hcell := Array.getElem?_eq_getElem (hfr.temps x b hx hb).1
      rw [Frame.read_of_lookup hb hcell] at h
      cases h
      exact ⟨b, hb, hcell⟩

theorem advance (h : fr'.Holds t x w) (hfr : Frame.Paired bound p t fr fr') (hx : bound ≤ x.index)
    (hadv : Advances p t q t') : fr'.Holds t' x w := by
  obtain ⟨b, hb, hw⟩ := h
  obtain ⟨hlt, hfree⟩ := hfr.temps x b hx hb
  exact ⟨b, hb, (hadv.cell b.index hlt hfree).1.trans hw⟩

theorem congr (h : fr.Holds t x w) {temps : Set Nat} (hkeep : Frame.Keeps temps fr fr₁)
    (hx : x.index ∉ temps) (hcells : t'.cells = t.cells) : fr₁.Holds t' x w := by
  obtain ⟨b, hb, hw⟩ := h
  exact ⟨b, (hkeep x hx).trans hb, hcells ▸ hw⟩

/-- Binding another temporary. -/
theorem extend (h : fr.Holds t x w) {temps : Set Nat} (hkeep : Frame.Keeps temps fr fr₁)
    (hx : x.index ∉ temps) (hext : t.Extends t') : fr₁.Holds t' x w := by
  obtain ⟨b, hb, hw⟩ := h
  have hlt := (Array.getElem?_eq_some_iff.1 hw).1
  exact ⟨b, (hkeep x hx).trans hb, (hext.getElem?_cells hlt).trans hw⟩

end Frame.Holds

/-! ## Lengths -/

/-- A sequence of the store has `n` elements. -/
def Store.HasLength (t : Store) (b : SliceAddr) (n : Nat) : Prop :=
  ∃ sl : Slice, t.slices[b.index]? = some sl ∧ sl.items.size = n

namespace Store.HasLength

variable {b o : SliceAddr} {n : Nat}

theorem sliceLength_eq (h : t.HasLength b n) : Run.sliceLength b t = .ok n t := by
  obtain ⟨sl, hsl, rfl⟩ := h
  simp [Run.sliceLength, hsl]

theorem extend (h : t.HasLength b n) (hext : t.Extends t') : t'.HasLength b n := by
  obtain ⟨sl, hsl, hn⟩ := h
  exact ⟨sl, (hext.getElem?_slices (Array.getElem?_eq_some_iff.1 hsl).1).trans hsl, hn⟩

theorem advance (h : t.HasLength b n) (hadv : Advances p t q t') : t'.HasLength b n := by
  obtain ⟨sl, hsl, rfl⟩ := h
  exact hadv.length hsl

/-- Overwriting an element leaves all lengths as they are. -/
theorem writeItem (h : t.HasLength b n) (i : Nat) (w : Value) :
    Store.HasLength { t with slices := t.slices.modify o.index fun sl => sl.set i w } b n := by
  obtain ⟨sl, hsl, hn⟩ := h
  by_cases hb : o.index = b.index
  · exact ⟨sl.set i w, by simp [Array.getElem?_modify, hb, hsl], by simpa [Slice.set] using hn⟩
  · exact ⟨sl, by simp [Array.getElem?_modify, hb, hsl], hn⟩

end Store.HasLength

/-! ## One round -/

theorem position_elided {i n : Nat} (hi : i < n) (hn : n < Slice.capacity) :
    position (Int64.ofNat i) n .elided = pure i := by
  have htoInt := Word.toInt_ofNat (hi.trans hn)
  simp only [position, htoInt, Int.toNat_natCast]
  rw [if_pos ⟨by omega, hi⟩]

section Round

variable {xs xf xo x : LocalId} {js jf jo j je jc : Info} {b o : SliceAddr} {g w : Value} {i n : Nat}

/-- The call of a round: the element is read and the callable is called on it. -/
theorem eval_round (hseq : fr'.Holds t xs (.slice b)) (hfn : fr'.Holds t xf g)
    (hx : fr'.Holds t x (.int (Int64.ofNat i))) (hlen : Run.sliceLength b t = .ok n t) (hi : i < n)
    (hn : n < Slice.capacity) (hitem : Run.readItem b i t = .ok w t) :
    eval m' fr' (.call (.local xf jf) [.index (.local xs js) (.local x j) .elided je] jc) t
      = m'.call g [w] t := by
  have hindex : eval m' fr' (.index (.local xs js) (.local x j) .elided je) t = .ok w t := by
    rw [eval, Run.bind_apply_of_ok (hseq.eval_eq m' js), Run.bind_apply_of_ok (hx.eval_eq m' j)]
    simp only [asInt, asSlice, pure_bind]
    rw [Run.bind_apply_of_ok hlen, position_elided hi hn, pure_bind, hitem]
  rw [eval, Run.bind_apply_of_ok (hfn.eval_eq m' jf)]
  simp only [evalList, bind_assoc, pure_bind]
  rw [Run.bind_apply_of_ok hindex]

/-- The statement of a round: the call, then the store of its result. -/
theorem exec_round (hseq : fr'.Holds t xs (.slice b)) (hfn : fr'.Holds t xf g)
    (hout : fr'.Holds t xo (.slice o)) (hx : fr'.Holds t x (.int (Int64.ofNat i)))
    (hlen : Run.sliceLength b t = .ok n t) (hi : i < n) (hn : n < Slice.capacity)
    (hitem : Run.readItem b i t = .ok w t) :
    execBlock m' fr' [.store (.local xo jo) (.local x j)
      (.call (.local xf jf) [.index (.local xs js) (.local x j) .elided je] jc) .elided] t
      = (do
        let v ← m'.call g [w]
        let len ← Run.sliceLength o
        let k ← position (Int64.ofNat i) len .elided
        Run.writeItem o k v
        pure (Flow.next, fr')) t := by
  simp only [execBlock, exec, bind_assoc]
  rw [Run.bind_apply_of_ok (hout.eval_eq m' jo), Run.bind_apply_of_ok (hx.eval_eq m' j),
    Run.bind_apply_congr (eval_round hseq hfn hx hlen hi hn hitem)]
  simp only [asInt, asSlice, pure_bind]

end Round

/-- The first elements of a sequence after one more element was stored. -/
theorem take_set_succ {y : Slice} {i : Nat} (hi : i < y.items.size) (w : Value) :
    (y.set i w).items.toList.take (i + 1) = y.items.toList.take i ++ [w] := by
  have hlen : i < y.items.toList.length := by simpa using hi
  simp only [Slice.set, Array.toList_setIfInBounds]
  rw [List.take_add_one, List.take_set_of_le le_rfl, List.getElem?_set_self hlen]
  rfl

/-! ## The loop -/

section Loop

variable {xs xf xo x : LocalId} {js jf jo j je jc : Info} {a b o : SliceAddr} {n : Nat}
  {p₀ : Pairing} {t₀ : Store}

/-- The invariant of the loop. The direct run has collected the values `done`, and the lowered run has
stored as many in the result sequence `o`, with which nothing is paired yet. The temporaries still hold
the sequence `b` of the elements, the callable `g` and the result sequence. -/
structure Filling (sigs : Validate.Signatures) (bound : Nat) (xs xf xo : LocalId)
    (a b o : SliceAddr) (n : Nat) (fr : Frame) (f g : Value) (done : Array Value) (p : Pairing)
    (t : Store) (fr' : Frame) : Prop where
  frames : Frame.Paired bound p t fr fr'
  callable : f.Paired sigs p g
  elements : p.slices a.index = some b.index
  length : t.HasLength b n
  free : p.FreeSlice o.index
  filled : ∃ y, t.slices[o.index]? = some y ∧ y.items.size = n ∧
    PairedValues sigs p done.toList (y.items.toList.take done.size)
  holdsElements : fr'.Holds t xs (.slice b)
  holdsCallable : fr'.Holds t xf g
  holdsResult : fr'.Holds t xo (.slice o)

variable {f g : Value} {done : Array Value}

/-- **One round of the loop keeps the invariant.** What it changes was not there in the store `t₀`,
from where the whole is seen. -/
theorem Filling.round (hm : Engine.Beside sigs m m') (hn : n < Slice.capacity)
    (hxs : bound ≤ xs.index) (hsf : xs.index < xf.index) (hfo : xf.index < xo.index)
    (hox : xo.index < x.index) (ho : t₀.slices.size ≤ o.index)
    (h : Filling sigs bound xs xf xo a b o n fr f g done p t fr') (hadv : Advances p₀ t₀ p t)
    (hs : s.Paired sigs p t) (hi : done.size < n) :
    Machine.Beside sigs p₀ t₀
      (fun q t' v r => r.1 = .next ∧ Frame.Keeps {x.index} fr' r.2 ∧
        Filling sigs bound xs xf xo a b o n fr f g (done.push v) q t' r.2)
      ((Run.readItem a done.size >>= fun v => m.call f [v]) s)
      ((fr'.bind x (.int (Int64.ofNat done.size)) >>= fun fr =>
        execBlock m' fr [.store (.local xo jo) (.local x j)
          (.call (.local xf jf) [.index (.local xs js) (.local x j) .elided je] jc) .elided]) t) := by
  obtain ⟨y, hy, hyn, hpaired⟩ := h.filled
  -- the counter gets a new cell
  obtain ⟨fr₁, t₁, hbind, hext, hs₁, hfr₁, hkeep₁, c, hc, -, hcell⟩ :=
    Frame.bindTemp hs h.frames (by omega : bound ≤ x.index) (.int (Int64.ofNat done.size))
  have hadv₁ := hadv.trans (hext.advances p)
  have hy₁ : t₁.slices[o.index]? = some y :=
    (hext.getElem?_slices (Array.getElem?_eq_some_iff.1 hy).1).trans hy
  obtain ⟨v, w, hv, hw, hvw⟩ := hs₁.readItem h.elements done.size
  have hlen₁ := h.length.extend hext
  have hseq₁ := h.holdsElements.extend hkeep₁ (by simp; omega) hext
  have hfn₁ := h.holdsCallable.extend hkeep₁ (by simp; omega) hext
  have hout₁ := h.holdsResult.extend hkeep₁ (by simp; omega) hext
  rw [Run.bind_apply_of_ok hv, Run.bind_apply_of_ok hbind, exec_round hseq₁ hfn₁ hout₁
    ⟨c, hc, hcell⟩ hlen₁.sliceLength_eq hi hn hw, ← bind_pure (m.call f [v])]
  refine Beside.bind_from (hm.call hs₁ h.callable (.cons hvw .nil)) ?_
  intro q s₂ t₂ v' w' hadv₂ hs₂ hvw'
  -- the call has left the result sequence alone
  obtain ⟨hkept, hfree₂⟩ := hadv₂.slice o.index (Array.getElem?_eq_some_iff.1 hy₁).1 h.free
  have hy₂ := hkept.trans hy₁
  have hlen₂ : t₂.HasLength o n := ⟨y, hy₂, hyn⟩
  -- its result is stored behind what is there already
  let t₃ : Store := { t₂ with slices := t₂.slices.modify o.index fun sl => sl.set done.size w' }
  rw [Run.bind_apply_of_ok hlen₂.sliceLength_eq, position_elided hi hn, pure_bind,
    Run.bind_apply_of_ok (show Run.writeItem o done.size w' t₂ = .ok () t₃ from rfl)]
  have hfr₂ := hfr₁.advance hadv₂
  have hholds : ∀ {z : LocalId} {u : Value}, bound ≤ z.index → fr₁.Holds t₁ z u →
      fr₁.Holds t₃ z u :=
    fun hz h => (h.advance hfr₁ hz hadv₂).congr (.refl ∅ fr₁) (Set.notMem_empty _) rfl
  have hy₃ : t₃.slices[o.index]? = some (y.set done.size w') := by
    simp [t₃, Array.getElem?_modify, hy₂]
  have hpaired₃ : PairedValues sigs q (done.push v').toList
      ((y.set done.size w').items.toList.take (done.push v').size) := by
    rw [Array.size_push, take_set_succ (by omega), Array.toList_push]
    exact List.rel_append (hpaired.mono hadv₂.le) (.cons hvw' .nil)
  refine ⟨(.next, fr₁), t₃, q, rfl, (hadv₁.trans hadv₂).writeItem ho _ w',
    hs₂.writeItemFree hfree₂ _ w', rfl, hkeep₁, ⟨hfr₂.locals, hfr₂.temps⟩,
    h.callable.mono hadv₂.le, hadv₂.le.slices h.elements, (hlen₁.advance hadv₂).writeItem _ w',
    hfree₂, ⟨_, hy₃, by simpa [Slice.set] using hyn, hpaired₃⟩, hholds hxs hseq₁,
    hholds (by omega) hfn₁, hholds (by omega) hout₁⟩

/-- **The loop of a map goes side by side with applying the callable to the elements in order.** -/
theorem mapLoop_beside (hm : Engine.Beside sigs m m') (hn : n < Slice.capacity)
    (hxs : bound ≤ xs.index) (hsf : xs.index < xf.index) (hfo : xf.index < xo.index)
    (hox : xo.index < x.index) (ho : t₀.slices.size ≤ o.index) :
    ∀ {k : Nat} {done : Array Value} {p : Pairing} {s t : Store} {fr' : Frame},
      Filling sigs bound xs xf xo a b o n fr f g done p t fr' → Advances p₀ t₀ p t →
      s.Paired sigs p t → done.size + k = n →
      Machine.Beside sigs p₀ t₀
        (fun q t' vs r => r.1 = .next ∧ Frame.Keeps {x.index} fr' r.2 ∧ vs.size = n ∧
          Filling sigs bound xs xf xo a b o n fr f g vs q t' r.2)
        (mapItems m.call f a k done.size done s)
        (forLoop x (fun fr => execBlock m' fr [.store (.local xo jo) (.local x j)
          (.call (.local xf jf) [.index (.local xs js) (.local x j) .elided je] jc) .elided])
          k (Int64.ofNat done.size) fr' t)
  | 0, done, p, s, t, fr', h, hadv, hs, hk =>
      ⟨_, t, p, rfl, hadv, hs, rfl, .refl _ _, hk, h⟩
  | k + 1, done, p, s, t, fr', h, hadv, hs, hk => by
      simp only [mapItems, forLoop, ← bind_assoc]
      refine Beside.bind_from (h.round hm hn hxs hsf hfo hox ho hadv hs (by omega)) ?_
      rintro q s₁ t₁ v ⟨_, fr₁⟩ hadv₁ hs₁ ⟨rfl, hkeep₁, h₁⟩
      have hnext : Int64.ofNat done.size + 1 = Int64.ofNat (done.push v).size := by
        rw [Array.size_push]
        exact (Int64.ofNat_add _ 1).symm
      rw [← Array.size_push v, hnext]
      refine (mapLoop_beside hm hn hxs hsf hfo hox ho h₁ hadv₁ hs₁
        (by rw [Array.size_push]; omega)).weaken ?_
      rintro q' t' vs r - ⟨hflow, hkeep', hrest⟩
      exact ⟨hflow, hkeep₁.trans hkeep', hrest⟩

/-- After the last round. The direct run makes its sequence only now, and it is paired with the result
sequence, which is filled by then. -/
theorem Filling.newSlice (hn : done.size = n) (hcap : n < Slice.capacity)
    (ho : t₀.slices.size ≤ o.index)
    (h : Filling sigs bound xs xf xo a b o n fr f g done p t fr') (hadv : Advances p₀ t₀ p t)
    (hs : s.Paired sigs p t) :
    Machine.Beside sigs p₀ t₀
      (fun q t' vs r => r = fr' ∧ Frame.Paired bound q t' fr r ∧
        PairedValues sigs q vs [.slice o] ∧ r.Holds t' xo (.slice o))
      ((Run.newSlice done none >>= fun v => pure [v]) s) ((pure fr' : Run Frame) t) := by
  obtain ⟨y, hy, hyn, hpaired⟩ := h.filled
  rw [List.take_of_length_le (by rw [Array.length_toList]; omega)] at hpaired
  have hfit : done.size < Slice.capacity := hn ▸ hcap
  have hnew : Run.newSlice done none s = .ok (.slice ⟨s.slices.size⟩)
      { s with slices := s.slices.push ⟨done, none, hfit⟩ } := by
    simp only [Run.newSlice, dif_pos hfit]
  rw [Run.bind_apply_of_ok hnew]
  exact ⟨fr', t, p.addSlice s.slices.size o.index, rfl, hadv.addSlice hs.slice_none ho,
    hs.pairSlice (x := ⟨done, none, hfit⟩) hy h.free hpaired, rfl,
    ⟨h.frames.locals, h.frames.temps⟩, .cons ⟨o, rfl, by simp [Pairing.addSlice]⟩ .nil,
    h.holdsResult⟩

end Loop

/-! ## Maps -/

/-- What a direct map does with the values of its operands. -/
def applyMap (m : Engine) : List Value → Run Value
  | [v, f] => do
      let a ← asSlice v
      let n ← Run.sliceLength a
      let vs ← mapItems m.call f a n 0 #[]
      Run.newSlice vs none
  | _ => pure .unit

theorem eval_map (hm : m.maps = .direct) (fr : Frame) (l r : Expr) (common : Option Ir.Ty)
    (facts : Option MapFacts) (i : Info) :
    eval m fr (.binary .map l r common facts i) = evalList m fr [l, r] >>= applyMap m := by
  simp only [eval, if_true, hm, evalList, bind_assoc, pure_bind, applyMap]

theorem runHoisted_for (m : Engine) (fr : Frame) (x : LocalId) (a z : Expr) (b : List Stmt) :
    runHoisted m fr [.for x a z b] = (do
      let v ← eval m fr a
      let first ← asInt v
      let w ← eval m fr z
      let last ← asInt w
      let (flow, fr) ← forLoop x (fun fr => execBlock m fr b) (countBetween first last) first fr
      match flow with
      | .next => pure fr
      | _ => Run.stop (.unboundLocal default)) := by
  simp only [runHoisted, execBlock, exec, bind_assoc]
  refine bind_congr fun v => bind_congr fun first => bind_congr fun w => bind_congr fun last =>
    bind_congr fun r => ?_
  obtain ⟨flow, fr₁⟩ := r
  cases flow <;> simp only [pure_bind]

section Map

variable {xs xf xl xo x : LocalId} {js jf jl jl' jo jo' j j₀ je jc i : Info} {l r : Expr}
  {common : Option Ir.Ty} {facts : Option MapFacts} {u : Ir.Ty} {site : Site} {temps : Set Nat}
  {h : List Stmt}

variable (m' x js jl jl' jo j₀ u site) in
/-- What comes before the rounds: the length is read, and the result sequence is allocated. -/
theorem runHoisted_mapLoop {fr fr₁ : Frame} {t₁ : Store} {b : SliceAddr} {n : Nat} (body : List Stmt)
    (hs₁ : s.Paired sigs q t₁) (hfr₁ : Frame.Paired bound q t₁ fr fr₁)
    (hseq : fr₁.Holds t₁ xs (.slice b)) (hn : t₁.HasLength b n)
    (hcap : n < Slice.capacity) (hxl : bound ≤ xl.index) (hlo : xl.index < xo.index) :
    ∃ fr₄ t₄ o y, runHoisted m' fr₁ [.bind xl (.len (.local xs js) jl),
        .bind xo (.alloc u (.local xl jl') site jo),
        .for x (.const (.int 0) j₀) (.local xl jl') body] t₁
        = (do
          let (flow, fr) ← forLoop x (fun fr => execBlock m' fr body) n (Int64.ofNat 0) fr₄
          match flow with
          | .next => pure fr
          | _ => Run.stop (.unboundLocal default)) t₄ ∧
      t₁.Extends t₄ ∧ Frame.Paired bound q t₄ fr fr₄ ∧
        Frame.Keeps {xl.index, xo.index} fr₁ fr₄ ∧ fr₄.Holds t₄ xo (.slice o) ∧
          t₁.slices.size ≤ o.index ∧ t₄.slices[o.index]? = some y ∧ y.items.size = n := by
  -- the length
  have hlen : eval m' fr₁ (.len (.local xs js) jl) t₁ = .ok (.int (Int64.ofNat n)) t₁ := by
    rw [eval, Run.bind_apply_of_ok (hseq.eval_eq m' js)]
    simp only [builtin]
    rw [Run.bind_apply_of_ok hn.sliceLength_eq]
    rfl
  obtain ⟨fr₂, t₂, hbind₂, hext₂, hs₂, hfr₂, hkeep₂, c, hc, -, hcell⟩ :=
    Frame.bindTemp hs₁ hfr₁ hxl (.int (Int64.ofNat n))
  have hlen₂ : fr₂.Holds t₂ xl (.int (Int64.ofNat n)) := ⟨c, hc, hcell⟩
  -- the result sequence
  obtain ⟨o, t₃, y, halloc, hext₃, ho, hy, hyn⟩ :=
    allocate_extends u hcap ⟨site, fr₂.activation⟩ t₂
  have hout : eval m' fr₂ (.alloc u (.local xl jl') site jo) t₂ = .ok (.slice o) t₃ := by
    rw [eval, Run.bind_apply_of_ok (hlen₂.eval_eq m' jl')]
    simp only [asInt, pure_bind]
    exact halloc
  obtain ⟨fr₄, t₄, hbind₄, hext₄, -, hfr₄, hkeep₄, c', hc', -, hcell'⟩ :=
    Frame.bindTemp (hs₂.extend hext₃) (hfr₂.advance (hext₃.advances q)) (x := xo) (by omega)
      (.slice o)
  have hlen₄ : fr₄.Holds t₄ xl (.int (Int64.ofNat n)) :=
    hlen₂.extend hkeep₄ (by simpa using hlo.ne) (hext₃.trans hext₄)
  have hcount : countBetween 0 (Int64.ofNat n) = n := by
    simp only [countBetween, Word.toInt_ofNat hcap, Int64.toInt_zero]
    omega
  have hslices : t₁.slices.size ≤ t₂.slices.size := by
    obtain ⟨sls, hsls⟩ := hext₂.slices
    simp [hsls]
  refine ⟨fr₄, t₄, o, y, ?_, (hext₂.trans hext₃).trans hext₄, hfr₄, ?_, ⟨c', hc', hcell'⟩,
    hslices.trans ho, ?_, hyn⟩
  · rw [← List.singleton_append, runHoisted_append, runHoisted_bind, bind_assoc,
      Run.bind_apply_of_ok hlen, Run.bind_apply_of_ok hbind₂, ← List.singleton_append,
      runHoisted_append, runHoisted_bind, bind_assoc, Run.bind_apply_of_ok hout,
      Run.bind_apply_of_ok hbind₄, runHoisted_for]
    simp only [eval, pure_bind, asInt]
    rw [Run.bind_apply_of_ok hlen₄.read_eq]
    simp only [pure_bind, hcount]
    rfl
  · exact (hkeep₂.mono (by simp)).trans (hkeep₄.mono (by simp))
  · exact (hext₄.getElem?_slices (Array.getElem?_eq_some_iff.1 hy).1).trans hy

/-- **A map and its loop.** If the operands are settled in temporaries, the loop settles the result
of the map in another one. -/
theorem Pinned.map (hm : Engine.Beside sigs m m')
    (hpin : Pinned sigs bound m m' temps [l, r] h [.local xs js, .local xf jf])
    (hxs : bound ≤ xs.index) (hsf : xs.index < xf.index) (hfl : xf.index < xl.index)
    (hlo : xl.index < xo.index) (hox : xo.index < x.index) :
    Pinned sigs bound m m' (temps ∪ {xl.index, xo.index, x.index})
      [.binary .map l r common facts i]
      (h ++ [.bind xl (.len (.local xs js) jl), .bind xo (.alloc u (.local xl jl') site jo),
        .for x (.const (.int 0) j₀) (.local xl jl') [.store (.local xo jo') (.local x j)
          (.call (.local xf jf) [.index (.local xs js) (.local x j) .elided je] jc) .elided]])
      [.local xo jo'] := by
  refine ⟨?_, fun {p s t fr fr'} hs hfr => ?_⟩
  · intro d hd
    rw [List.mem_singleton.1 hd]
    exact ⟨by omega, Set.notMem_empty _⟩
  have heq : evalList m fr [.binary .map l r common facts i]
      = evalList m fr [l, r] >>= fun vs => applyMap m vs >>= fun v => pure [v] := by
    rw [evalList, eval_map hm.direct, bind_assoc]
    simp only [evalList, pure_bind]
  rw [heq, runHoisted_append]
  refine Beside.bind (hpin.run hs hfr) ?_
  rintro q s₁ t₁ vs fr₁ hadv₁ hs₁ ⟨hfr₁, hkeep₁, us, hus, hvs⟩
  -- the two operands
  obtain ⟨w, _, us', hw, hus', rfl⟩ := evalList_cons_eq_ok hus
  have hpinned : Expr.Pin bound ∅ (.local xs js) := ⟨hxs, Set.notMem_empty _⟩
  have hsame := hpinned.store_eq hw
  rw [hsame] at hw hus'
  obtain ⟨g, _, us'', hg, hus'', rfl⟩ := evalList_cons_eq_ok hus'
  cases hus''
  obtain ⟨v, vs', hvw, hvs', rfl⟩ := List.forall₂_cons_right_iff.1 hvs
  obtain ⟨f, vs'', hfg, hvs'', rfl⟩ := List.forall₂_cons_right_iff.1 hvs'
  obtain rfl := List.forall₂_nil_right_iff.1 hvs''
  cases v with
  | slice a =>
      obtain ⟨b, rfl, hab⟩ := hvw
      obtain ⟨n, hn, -, x', y', -, hy', hsize, hsize'⟩ := hs₁.length_eq hab
      have hcap : n < Slice.capacity := hsize ▸ x'.fits
      have hlen : t₁.HasLength b n := ⟨y', hy', hsize'⟩
      have hseq₁ : fr₁.Holds t₁ xs (.slice b) := .of_eval hfr₁ hxs hw
      have hfn₁ : fr₁.Holds t₁ xf g := .of_eval hfr₁ (by omega) hg
      obtain ⟨fr₄, t₄, o, y, hrun, hext, hfr₄, hkeep₄, hout, ho, hy, hyn⟩ :=
        runHoisted_mapLoop m' x js jl jl' jo j₀ u site [.store (.local xo jo') (.local x j)
            (.call (.local xf jf) [.index (.local xs js) (.local x j) .elided je] jc) .elided]
          hs₁ hfr₁ hseq₁ hlen hcap (by omega) hlo
      have hfilling : Filling sigs bound xs xf xo a b o n fr f g #[] q t₄ fr₄ :=
        { frames := hfr₄
          callable := hfg
          elements := hab
          length := hlen.extend hext
          free := hs₁.freeSlice ho
          filled := ⟨y, hy, hyn, .nil⟩
          holdsElements := hseq₁.extend hkeep₄ (by simp; omega) hext
          holdsCallable := hfn₁.extend hkeep₄ (by simp; omega) hext
          holdsResult := hout }
      rw [hrun]
      simp only [applyMap, asSlice, pure_bind, bind_assoc]
      rw [Run.bind_apply_of_ok hn]
      refine Beside.bind_from (mapLoop_beside hm hcap hxs hsf (hfl.trans hlo) hox ho hfilling
        (hext.advances q) (hs₁.extend hext) (Nat.zero_add n)) ?_
      rintro q₂ s₂ t₂ vs ⟨_, fr₂⟩ hadv₂ hs₂ ⟨rfl, hkeep₂, hvs, hfilled⟩
      refine (hfilled.newSlice hvs hcap ho hadv₂ hs₂).weaken ?_
      rintro q₃ t₃ ws fr₃ - ⟨rfl, hfr₃, hws, hresult⟩
      have hkeep : Frame.Keeps (temps ∪ {xl.index, xo.index, x.index}) fr' fr₃ := by
        refine (hkeep₁.mono Set.subset_union_left).trans ((hkeep₄.mono ?_).trans (hkeep₂.mono ?_))
        · intro z hz
          simp only [Set.mem_insert_iff, Set.mem_singleton_iff, Set.mem_union] at hz ⊢
          tauto
        · intro z hz
          simp only [Set.mem_insert_iff, Set.mem_singleton_iff, Set.mem_union] at hz ⊢
          tauto
      refine ⟨hfr₃, hkeep, [.slice o], ?_, hws⟩
      rw [evalList, Run.bind_apply_of_ok (hresult.eval_eq m' jo')]
      rfl
  | _ => exact .clash

end Map

end Rivulet.Machine
