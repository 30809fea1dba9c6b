import Rivulet.Proofs.Code.Validation
import Rivulet.Proofs.Machine.StoreTyping

set_option autoImplicit false

/-! # Safe operations

What the operations of the machine do on values of the right types: binding, reading and overwriting
locals, operators, sequences, subscripts, returns, and the element loop of a map. Each is safe and
gives a value of the type that the rules of the code promise. -/

namespace Rivulet.Machine

open Ir

/-- The live locals of a frame are bound to cells of their types. -/
def Frame.Models (fr : Frame) (ctx : Context) (live : List LocalId) (st : StoreTyping) : Prop :=
  ∀ x ∈ live, ∃ a, fr.cells.lookup x = some a ∧ st.cells a.index = some (ctx.typeOf x)

variable {ct : CodeTyping} {st st' : StoreTyping} {s : Store}

theorem Frame.Models.mono {fr : Frame} {ctx : Context} {live : List LocalId}
    (h : fr.Models ctx live st) (hle : st.Le st') : fr.Models ctx live st' := by
  intro x hx
  obtain ⟨a, ha, hat⟩ := h x hx
  exact ⟨a, ha, hle.cells hat⟩

theorem Frame.Models.subset {fr : Frame} {ctx : Context} {live live' : List LocalId}
    (h : fr.Models ctx live st) (hsub : live' ⊆ live) : fr.Models ctx live' st :=
  fun x hx => h x (hsub hx)

/-! ## Frames -/

/-- Binding a local to a value of its type. -/
theorem Frame.bind_safe {fr : Frame} {ctx : Context} {live : List LocalId} (hs : s.Models ct st)
    (hfr : fr.Models ctx live st) {x : LocalId} {v : Value} (hv : v.HasTy ct st (ctx.typeOf x)) :
    Safe ct st (fun st' fr' => fr'.Models ctx (x :: live) st') (fr.bind x v s) := by
  have hle : st.Le (st.setCell s.cells.size (ctx.typeOf x)) := StoreTyping.le_setCell hs.cell_free
  refine ⟨_, hle, hs.pushCell hv, ?_⟩
  intro y hy
  simp only [Frame.lookup_setCell]
  by_cases hyx : y = x
  · subst hyx
    exact ⟨⟨s.cells.size⟩, by simp, by simp [StoreTyping.setCell]⟩
  · rw [if_neg hyx]
    have hy' : y ∈ live := by simpa [hyx] using hy
    exact hfr.mono hle y hy'

theorem Frame.bindAll_safe {ctx : Context} {live : List LocalId} :
    ∀ {ps : List LocalId} {vs : List Value} {st : StoreTyping} {s : Store} {fr : Frame},
      s.Models ct st → fr.Models ctx live st → Value.HasTys ct st vs (ps.map ctx.typeOf) →
      Safe ct st (fun st' fr' => fr'.Models ctx (ps ++ live) st') (fr.bindAll ps vs s)
  | [], vs, st, s, fr, hs, hfr, hvs => by
      cases vs with
      | nil => exact Safe.pure hs hfr
      | cons v vs => simp [Value.HasTys] at hvs
  | x :: ps, vs, st, s, fr, hs, hfr, hvs => by
      cases vs with
      | nil => simp [Value.HasTys] at hvs
      | cons v vs =>
          obtain ⟨t, us, hts, hv, hvs⟩ := hvs
          rw [List.map_cons, List.cons.injEq] at hts
          obtain ⟨rfl, rfl⟩ := hts
          refine Safe.bind (Frame.bind_safe hs hfr hv) fun st' fr' s' hle hs' hfr' => ?_
          refine (Frame.bindAll_safe hs' hfr' (hvs.mono hle)).weaken fun st'' fr'' _ h => ?_
          refine h.subset fun y hy => ?_
          simp only [List.mem_cons, List.mem_append, List.cons_append] at hy ⊢
          tauto

theorem Frame.bindParams_safe {ctx : Context} {live ps : List LocalId} {vs : List Value}
    {fr : Frame} (hs : s.Models ct st) (hfr : fr.Models ctx live st)
    (hvs : Value.HasTys ct st vs (ps.map ctx.typeOf)) :
    Safe ct st (fun st' fr' => fr'.Models ctx (ps ++ live) st') (fr.bindParams ps vs s) := by
  have hlen : ps.length = vs.length := by
    have := hvs.length_eq
    rw [List.length_map] at this
    exact this.symm
  rw [Frame.bindParams, if_pos hlen]
  exact Frame.bindAll_safe hs hfr hvs

/-- Reading a live local. -/
theorem Frame.read_safe {fr : Frame} {ctx : Context} {live : List LocalId} (hs : s.Models ct st)
    (hfr : fr.Models ctx live st) {x : LocalId} (hx : x ∈ live) :
    Safe ct st (fun st' v => v.HasTy ct st' (ctx.typeOf x)) (fr.read x s) := by
  obtain ⟨a, ha, hat⟩ := hfr x hx
  obtain ⟨v, hv, hvt⟩ := hs.cells hat
  rw [Frame.read, Frame.cell_of_lookup ha, pure_bind]
  refine Safe.ok hs ?_
  simpa [hv] using hvt

/-- Overwriting a live local with a value of its type. -/
theorem Frame.write_safe {fr : Frame} {ctx : Context} {live : List LocalId} (hs : s.Models ct st)
    (hfr : fr.Models ctx live st) {x : LocalId} (hx : x ∈ live) {v : Value}
    (hv : v.HasTy ct st (ctx.typeOf x)) :
    Safe ct st (fun _ _ => True) (fr.write x v s) := by
  obtain ⟨a, ha, hat⟩ := hfr x hx
  rw [Frame.write, Frame.cell_of_lookup ha, pure_bind]
  exact Safe.ok (hs.writeCell hat hv) trivial

/-! ## Values -/

theorem asBool_safe {v : Value} (hs : s.Models ct st) (hv : v.HasTy ct st .bool) :
    Safe ct st (fun _ b => v = .bool b) (asBool v s) := by
  obtain ⟨b, rfl⟩ := hv.bool
  exact Safe.pure hs rfl

/-- A new sequence of elements of one type. -/
theorem newSlice_safe {vs : Array Value} {t : Ir.Ty} (o : Option Origin) (hs : s.Models ct st)
    (hvs : ∀ v ∈ vs, v.HasTy ct st t) :
    Safe ct st (fun st' v => v.HasTy ct st' (.slice t)) (Run.newSlice vs o s) := by
  unfold Run.newSlice
  split
  · rename_i hfit
    refine ⟨_, StoreTyping.le_setSlice hs.slice_free, hs.pushSlice ⟨vs, o, hfit⟩ hvs, ?_⟩
    exact ⟨t, vs.size, rfl, by simp [StoreTyping.setSlice]⟩
  · trivial

/-- The length of a typed sequence. -/
theorem sliceLength_of_typed {a : SliceAddr} {t : Ir.Ty} {n : Nat} (hs : s.Models ct st)
    (ha : st.slices a.index = some (t, n)) : Run.sliceLength a s = .ok n s := by
  obtain ⟨sl, hsl, hn, -⟩ := hs.slices ha
  simp [Run.sliceLength, hsl, hn]

/-- Reading an element at a position inside of a sequence. -/
theorem readItem_safe {a : SliceAddr} {t : Ir.Ty} {n i : Nat} (hs : s.Models ct st)
    (ha : st.slices a.index = some (t, n)) (hi : i < n) :
    Safe ct st (fun st' v => v.HasTy ct st' t) (Run.readItem a i s) := by
  obtain ⟨sl, hsl, rfl, hall⟩ := hs.slices ha
  refine Safe.ok hs ?_
  simp only [hsl, Option.bind_some, Array.getElem?_eq_getElem hi, Option.getD_some]
  exact hall _ (Array.getElem_mem hi)

/-! ## Operators -/

theorem unary_safe {op : UnaryOp} {v : Value} (hs : s.Models ct st)
    (hv : v.HasTy ct st (Validate.unaryOperandTy op)) :
    Safe ct st (fun st' w => w.HasTy ct st' (Validate.unaryOperandTy op)) (unary op v s) := by
  cases op with
  | not =>
      obtain ⟨b, rfl⟩ := hv.bool
      exact Safe.pure hs rfl
  | negate =>
      obtain ⟨n, rfl⟩ := hv.int
      exact Safe.pure hs rfl

/-- Two integers under an operator that admits them: a value of the result type, or a division by
zero. -/
theorem Word.binary_safe {op : BinaryOp} {t : Ir.Ty} (ct : CodeTyping) (st : StoreTyping)
    (a b : Int64) (hmap : op ≠ .map)
    (h : Typing.homogeneous? op.rule Ir.Ty.i64 = some t) :
    Word.binary op a b = .error .divisionByZero ∨
      ∃ v, Word.binary op a b = .ok v ∧ v.HasTy ct st t := by
  cases op <;>
    simp only [BinaryOp.rule, Typing.homogeneous?, TypeShape.int, TypeShape.str, TypeShape.bool,
      reduceCtorEq, or_false, if_true, if_false, Option.some.injEq] at h <;>
    first
    | exact absurd rfl hmap
    | (subst h
       first
       | exact Or.inr ⟨_, rfl, rfl⟩
       | (simp only [Word.binary]
          split
          · exact Or.inl rfl
          · exact Or.inr ⟨_, rfl, rfl⟩))

/-- Two strings under an operator that admits them, comparisons for equality apart. -/
theorem strings?_safe {op : BinaryOp} {t : Ir.Ty} (ct : CodeTyping) (st : StoreTyping)
    (a b : String) (heq : op ≠ .eq) (hne : op ≠ .notEq) (h : Typing.homogeneous? op.rule Ir.Ty.str = some t) :
    ∃ v, strings? op a b = some v ∧ v.HasTy ct st t := by
  cases op <;>
    simp only [BinaryOp.rule, Typing.homogeneous?, TypeShape.int, TypeShape.str, TypeShape.bool,
      reduceCtorEq, or_true, if_true, if_false, Option.some.injEq] at h <;>
    first
    | exact absurd rfl heq
    | exact absurd rfl hne
    | (subst h; exact ⟨_, rfl, rfl⟩)

/-- The result of an equality is a truth value. -/
theorem homogeneous?_equality {l t : Ir.Ty} (h : Typing.homogeneous? .equality l = some t) :
    t = .bool := by
  simp only [Typing.homogeneous?] at h
  split at h
  · exact (Option.some.inj h).symm
  · cases h

/-- The operands and the result of a logical operator are truth values. -/
theorem homogeneous?_logic {op : BinaryOp} {l t : Ir.Ty} (hop : op = .and ∨ op = .or)
    (h : Typing.homogeneous? op.rule l = some t) : l = .bool ∧ t = .bool := by
  have hrule : op.rule = .logical := by rcases hop with rfl | rfl <;> rfl
  simp only [hrule, Typing.homogeneous?] at h
  split at h
  · rename_i hl
    exact ⟨hl, (Option.some.inj h).symm.trans hl⟩
  · cases h

/-- Apart from equality and logic, an operator admits integers or strings. -/
theorem homogeneous?_operand {op : BinaryOp} {l t : Ir.Ty} (heq : op ≠ .eq) (hne : op ≠ .notEq)
    (hop : ¬ (op = .and ∨ op = .or)) (h : Typing.homogeneous? op.rule l = some t) :
    l = .i64 ∨ l = .str := by
  rw [not_or] at hop
  obtain ⟨hand, hor⟩ := hop
  cases op <;> simp only [BinaryOp.rule, Typing.homogeneous?, TypeShape.int, TypeShape.str] at h <;>
    first
    | exact absurd rfl heq
    | exact absurd rfl hne
    | exact absurd rfl hand
    | exact absurd rfl hor
    | (split at h
       · tauto
       · cases h)
    | cases h

theorem binary_safe {op : BinaryOp} {l t : Ir.Ty} {v w : Value} (hs : s.Models ct st)
    (hmap : op ≠ .map) (hop : ¬ (op = .and ∨ op = .or))
    (h : Typing.homogeneous? op.rule l = some t) (hv : v.HasTy ct st l) (hw : w.HasTy ct st l) :
    Safe ct st (fun st' x => x.HasTy ct st' t) (binary op v w s) := by
  unfold binary
  by_cases heq : op = .eq
  · subst heq
    rw [homogeneous?_equality h]
    exact Safe.ok hs rfl
  by_cases hne : op = .notEq
  · subst hne
    rw [homogeneous?_equality h]
    exact Safe.ok hs rfl
  rw [if_neg heq, if_neg hne]
  rcases homogeneous?_operand heq hne hop h with rfl | rfl
  · obtain ⟨a, rfl⟩ := hv.int
    obtain ⟨b, rfl⟩ := hw.int
    rcases Word.binary_safe ct st a b hmap h with hb | ⟨x, hb, hx⟩
    · simp only [hb]
      trivial
    · simp only [hb]
      exact Safe.pure hs hx
  · obtain ⟨a, rfl⟩ := hv.str
    obtain ⟨b, rfl⟩ := hw.str
    obtain ⟨x, hb, hx⟩ := strings?_safe ct st a b heq hne h
    simp only [hb]
    exact Safe.pure hs hx

/-! ## Returns, subscripts and maps -/

/-- An engine whose calls are safe, and which runs maps directly. -/
structure Engine.Safe (m : Engine) (ct : CodeTyping) : Prop where
  maps : m.maps = .direct
  call : ∀ {st s f ps rs vs}, s.Models ct st → f.HasTy ct st (.func ps rs) →
    Value.HasTys ct st vs ps →
    Machine.Safe ct st (fun st' v => v.HasTy ct st' (.ofResults rs)) (m.call f vs s)
  print : ∀ {st s v}, s.Models ct st →
    Machine.Safe ct st (fun _ w => w = .unit) (m.call (.func (.builtin .println)) [v] s)

/-- Values of a return of well-typed expressions. -/
theorem hasTy_returned {rs : List Ir.Ty} {es : List Expr} {vs : List Value}
    (hrs : Validate.returned rs es = rs) (hvs : Value.HasTys ct st vs (es.map Expr.ty)) :
    (returned vs).HasTy ct st (.ofResults rs) := by
  by_cases hsingle : ∃ e, es = [e] ∧ 1 < rs.length
  · -- one expression supplies all results: its type is their tuple
    obtain ⟨e, rfl, hlen⟩ := hsingle
    simp only [Validate.returned, if_pos hlen] at hrs
    have hty : e.ty = .ofResults rs := by
      cases ht : e.ty with
      | tuple ts =>
          rw [ht] at hrs
          simp only [Ir.Ty.toResults] at hrs
          subst hrs
          match ts, hlen with
          | t :: u :: ts, _ => rfl
      | unit => rw [ht] at hrs; subst hrs; simp [Ir.Ty.toResults] at hlen
      | _ => rw [ht] at hrs; subst hrs; simp [Ir.Ty.toResults] at hlen
    rw [List.map_cons, List.map_nil, hty] at hvs
    exact hvs.returned
  · have hmap : es.map Expr.ty = rs := by
      match es, hrs with
      | [], hrs => exact hrs
      | [e], hrs =>
          have hlen : ¬ 1 < rs.length := fun h => hsingle ⟨e, rfl, h⟩
          simpa [Validate.returned, if_neg hlen] using hrs
      | e :: e' :: es, hrs => exact hrs
    rw [← hmap]
    exact hvs.returned

/-- A checked subscript is a position of the sequence, or a fault of the data. -/
theorem position_checked (i : Int64) (n : Nat) (s : Store) :
    (∃ k, k < n ∧ position i n .checked s = .ok k s) ∨
      position i n .checked s = .fault (.indexOutOfBounds i n) s := by
  unfold position
  split
  · rename_i h
    exact Or.inl ⟨_, h.2, rfl⟩
  · exact Or.inr rfl

/-- The subscript of a sequence by an integer. -/
theorem index_safe {v p : Value} {t : Ir.Ty} (hs : s.Models ct st) (hv : v.HasTy ct st (.slice t))
    (hp : p.HasTy ct st .i64) :
    Safe ct st (fun st' w => w.HasTy ct st' t)
      ((do
        let i ← asInt p
        let a ← asSlice v
        let n ← Run.sliceLength a
        let k ← position i n .checked
        Run.readItem a k) s) := by
  obtain ⟨i, rfl⟩ := hp.int
  obtain ⟨a, n, rfl, ha⟩ := hv.slice
  simp only [asInt, asSlice, pure_bind]
  rw [Run.bind_apply_of_ok (sliceLength_of_typed hs ha)]
  rcases position_checked i n s with ⟨k, hk, hpos⟩ | hpos
  · rw [Run.bind_apply_of_ok hpos]
    exact readItem_safe hs ha hk
  · rw [Run.bind_apply_of_fault hpos]
    trivial

/-- Applying a callable to the elements of a sequence from number `i` on. -/
theorem mapItems_safe {m : Engine} (hm : m.Safe ct) {f : Value} {a : SliceAddr} {e u : Ir.Ty}
    {len : Nat} :
    ∀ {n i : Nat} {done : Array Value} {st : StoreTyping} {s : Store}, i + n = len →
      s.Models ct st → f.HasTy ct st (.func [e] [u]) → st.slices a.index = some (e, len) →
      (∀ v ∈ done, v.HasTy ct st u) →
      Safe ct st (fun st' vs => ∀ v ∈ vs, v.HasTy ct st' u) (mapItems m.call f a n i done s)
  | 0, i, done, st, s, _, hs, _, _, hdone => Safe.pure hs hdone
  | n + 1, i, done, st, s, hlen, hs, hf, ha, hdone => by
      refine Safe.bind (readItem_safe hs ha (by omega)) fun st₁ v s₁ hle₁ hs₁ hv => ?_
      have hvs : Value.HasTys ct st₁ [v] [e] := ⟨e, [], rfl, hv, rfl⟩
      refine Safe.bind (hm.call hs₁ (hf.mono hle₁) hvs) fun st₂ w s₂ hle₂ hs₂ hw => ?_
      have hle := hle₁.trans hle₂
      refine mapItems_safe hm (by omega) hs₂ (hf.mono hle) (hle.slices ha) fun x hx => ?_
      rcases Array.mem_push.1 hx with hx | rfl
      · exact (hdone x hx).mono hle
      · exact hw

end Rivulet.Machine
