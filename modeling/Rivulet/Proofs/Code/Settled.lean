import Rivulet.Proofs.Code.Validation

set_option autoImplicit false

/-! # Settled code

Code is *settled* if validation has nothing left to do on it: every type that is written on it is the
derived one, no type is invalid, and every local is in the table. The judgement is about code of
either level and from any source, so allocations, stores, counted loops and breaks have rules too, and
a local may be read before it is bound.

Validation leaves settled code as it is and reports nothing (`Module.validate_of_settled`). -/

namespace Rivulet.Ir

open Validate (Scene)

/-! ## The rules -/

mutual

/-- An expression is settled. -/
def Expr.Settled (sc : Scene) : Expr → Prop
  | .const c i => i.ty = Validate.constTy c
  | .local x i => sc.ctx.Knows x ∧ i.ty = sc.ctx.typeOf x ∧ i.ty.hasInvalid = false
  | .function f i => sc.signatures.lookup f = some i.ty ∧ i.ty.hasInvalid = false
  | .builtin b i => b = .str ∧ i.ty = .func [.i64] [.str]
  | .unary op e i =>
      e.Settled sc ∧ e.ty = Validate.unaryOperandTy op ∧ i.ty = Validate.unaryOperandTy op
  | .binary op l r common _ i =>
      -- what is recorded as the common type of a map is nobody's business
      l.Settled sc ∧ r.Settled sc ∧
        OperatorTy op l.ty r.ty (if op = .map then none else common) i.ty
  | .call f as i =>
      Expr.SettledList sc as ∧
        ((∃ j, f = .builtin .println j ∧ as.length = 1 ∧ j.ty = .func (as.map Expr.ty) [] ∧
            i.ty = .unit) ∨
          (f.Settled sc ∧ ∃ rs, f.ty = .func (as.map Expr.ty) rs ∧ i.ty = .ofResults rs))
  | .index s p _ i => s.Settled sc ∧ p.Settled sc ∧ s.ty = .slice i.ty ∧ p.ty = .i64
  | .len e i => e.Settled sc ∧ (∃ t, e.ty = .slice t) ∧ i.ty = .i64
  | .alloc t e _ i => e.Settled sc ∧ e.ty = .i64 ∧ i.ty = .slice t ∧ t.hasInvalid = false
  | .slice es _ i =>
      Expr.SettledList sc es ∧ i.ty.hasInvalid = false ∧ ∃ t, i.ty = .slice t ∧ ∀ e ∈ es, e.ty = t
  | .closure ps rs cs b i =>
      (∀ x ∈ ps, sc.ctx.Knows x) ∧ (∀ x ∈ cs, sc.ctx.Knows x) ∧ Stmt.SettledBlock sc rs b ∧
        i.ty = .func (ps.map sc.ctx.typeOf) rs ∧ i.ty.hasInvalid = false
termination_by structural e => e

/-- Every expression of a list is settled. -/
def Expr.SettledList (sc : Scene) : List Expr → Prop
  | [] => True
  | e :: es => e.Settled sc ∧ Expr.SettledList sc es
termination_by structural es => es

/-- A statement is settled, in a function or closure with the results `rs`. -/
def Stmt.Settled (sc : Scene) (rs : List Ty) : Stmt → Prop
  | .bind x e | .assign x e => e.Settled sc ∧ sc.ctx.Knows x ∧ e.ty = sc.ctx.typeOf x
  | .store s p v _ =>
      s.Settled sc ∧ p.Settled sc ∧ v.Settled sc ∧ s.ty = .slice v.ty ∧ p.ty = .i64
  | .expr e => e.Settled sc
  | .return es => Expr.SettledList sc es ∧ Validate.returned rs es = rs
  | .if c t e =>
      c.Settled sc ∧ c.ty = .bool ∧ Stmt.SettledBlock sc rs t ∧ Stmt.SettledBlock sc rs e
  | .while c b => c.Settled sc ∧ c.ty = .bool ∧ Stmt.SettledBlock sc rs b
  | .break => True
  | .for x a z b =>
      a.Settled sc ∧ z.Settled sc ∧ a.ty = .i64 ∧ z.ty = .i64 ∧ sc.ctx.Knows x ∧
        sc.ctx.typeOf x = .i64 ∧ Stmt.SettledBlock sc rs b
termination_by structural s => s

/-- A block is settled. -/
def Stmt.SettledBlock (sc : Scene) (rs : List Ty) : List Stmt → Prop
  | [] => True
  | s :: ss => s.Settled sc rs ∧ Stmt.SettledBlock sc rs ss
termination_by structural ss => ss

end

/-- A module is settled. -/
def Module.Settled (m : Module) : Prop :=
  ∀ f ∈ m.functions, (∀ x ∈ f.params, f.ctx.Knows x) ∧
    Stmt.SettledBlock ⟨f.ctx, Validate.signatures m⟩ f.results f.body

section Lists

variable {sc : Scene} {rs : List Ty}

theorem Expr.settledList_iff (es : List Expr) :
    Expr.SettledList sc es ↔ ∀ e ∈ es, e.Settled sc := by
  induction es with
  | nil => simp [Expr.SettledList]
  | cons e es ih => simp [Expr.SettledList, ih]

theorem Stmt.settledBlock_append (ss ts : List Stmt) :
    Stmt.SettledBlock sc rs (ss ++ ts) ↔ Stmt.SettledBlock sc rs ss ∧ Stmt.SettledBlock sc rs ts := by
  induction ss with
  | nil => simp [Stmt.SettledBlock]
  | cons s ss ih => simp only [List.cons_append, Stmt.SettledBlock, ih, and_assoc]

end Lists

/-- The type of a settled expression is valid. -/
theorem Expr.Settled.valid {sc : Scene} : ∀ {e : Expr}, e.Settled sc → e.ty.hasInvalid = false
  | .const c i, h => by
      simp only [Expr.Settled] at h
      simp only [Expr.ty, Expr.info, h]
      cases c <;> rfl
  | .local x i, h => h.2.2
  | .function f i, h => h.2
  | .builtin b i, h => by
      simp only [Expr.Settled] at h
      simp only [Expr.ty, Expr.info, h.2]
      rfl
  | .unary op e i, h => by
      simp only [Expr.Settled] at h
      simp only [Expr.ty, Expr.info, h.2.2]
      cases op <;> rfl
  | .binary op l r common facts i, h => by
      simp only [Expr.Settled] at h
      exact h.2.2.valid h.2.1.valid
  | .call f as i, h => by
      simp only [Expr.Settled] at h
      rcases h.2 with ⟨j, -, -, -, hi⟩ | ⟨hf, rs, hty, hi⟩
      · simp only [Expr.ty, Expr.info, hi]
        rfl
      · have hv := hf.valid
        rw [hty] at hv
        simp only [Ty.hasInvalid, Bool.or_eq_false_iff] at hv
        simp only [Expr.ty, Expr.info, hi]
        exact Ty.hasInvalid_ofResults hv.2
  | .index s p b i, h => by
      simp only [Expr.Settled] at h
      have hv := h.1.valid
      rw [h.2.2.1] at hv
      exact hv
  | .len e i, h => by
      simp only [Expr.Settled] at h
      simp only [Expr.ty, Expr.info, h.2.2]
      rfl
  | .alloc t e s i, h => by
      simp only [Expr.Settled] at h
      simp only [Expr.ty, Expr.info, h.2.2.1]
      exact h.2.2.2
  | .slice es s i, h => by
      simp only [Expr.Settled] at h
      exact h.2.1
  | .closure ps rs cs b i, h => by
      simp only [Expr.Settled] at h
      exact h.2.2.2.2

/-! ## Well-typed code is settled -/

mutual

/-- A well-typed expression is settled, if the locals that are live are in the table. -/
theorem Expr.WellTyped.settled {sc : Scene} (hsc : sc.Valid) : ∀ {e : Expr} {live : List LocalId},
    (∀ x ∈ live, sc.ctx.Knows x) → e.WellTyped sc live → e.Settled sc
  | .const _ _, _, _, h => h
  | .local x i, _, hlive, h => by
      refine ⟨hlive x h.1, h.2, ?_⟩
      rw [h.2]
      exact hsc.known x (hlive x h.1)
  | .function f i, _, _, h => ⟨h, hsc.signature f i.ty h⟩
  | .builtin _ _, _, _, h => h
  | .unary _ _ _, _, hlive, h => ⟨h.1.settled hsc hlive, h.2⟩
  | .binary op l r common _ _, _, hlive, h => by
      refine ⟨h.1.settled hsc hlive, h.2.1.settled hsc hlive, ?_⟩
      -- a well-typed map has no common type recorded on it
      rcases h.2.2 with ⟨rfl, rfl, hmap⟩ | ⟨hne, hop⟩
      · exact .inl ⟨rfl, rfl, hmap⟩
      · rw [if_neg hne]
        exact .inr ⟨hne, hop⟩
  | .call f as i, _, hlive, h => by
      have has : Expr.SettledList sc as := h.1.settled hsc hlive
      rcases h.2 with hprint | ⟨hf, hrest⟩
      · exact ⟨has, .inl hprint⟩
      · exact ⟨has, .inr ⟨hf.settled hsc hlive, hrest⟩⟩
  | .index _ _ _ _, _, hlive, h => ⟨h.1.settled hsc hlive, h.2.1.settled hsc hlive, h.2.2.2⟩
  | .len _ _, _, hlive, h => ⟨h.1.settled hsc hlive, h.2⟩
  | .slice es _ _, _, hlive, h =>
      have hes : Expr.SettledList sc es := Expr.WellTypedList.settled hsc hlive h.1
      ⟨hes, h.2⟩
  | .closure ps rs cs b i, live, hlive, h => by
      have hvalid : i.ty.hasInvalid = false := Expr.WellTyped.valid hsc hlive h
      obtain ⟨hps, hcs, -, hb, -, hi⟩ := h
      have hcs' : ∀ x ∈ cs, sc.ctx.Knows x := fun x hx => hlive x (hcs hx)
      exact ⟨hps, hcs', hb.settled hsc (List.forall_mem_append.2 ⟨hps, hcs'⟩), hi, hvalid⟩

theorem Expr.WellTypedList.settled {sc : Scene} (hsc : sc.Valid) :
    ∀ {es : List Expr} {live : List LocalId}, (∀ x ∈ live, sc.ctx.Knows x) →
      Expr.WellTypedList sc live es → Expr.SettledList sc es
  | [], _, _, _ => trivial
  | _ :: _, _, hlive, h => ⟨h.1.settled hsc hlive, h.2.settled hsc hlive⟩

/-- A well-typed statement is settled, if the locals that are live are in the table. -/
theorem Stmt.WellTyped.settled {sc : Scene} (hsc : sc.Valid) {rs : List Ty} :
    ∀ {s : Stmt} {live : List LocalId}, (∀ x ∈ live, sc.ctx.Knows x) →
      s.WellTyped sc rs live → s.Settled sc rs
  | .bind _ _, _, hlive, h => ⟨h.1.settled hsc hlive, h.2⟩
  | .assign x _, _, hlive, h => ⟨h.1.settled hsc hlive, hlive x h.2.1, h.2.2⟩
  | .expr e, _, hlive, h => Expr.WellTyped.settled hsc (e := e) hlive h
  | .return es, _, hlive, h =>
      have hes : Expr.SettledList sc es := Expr.WellTypedList.settled hsc hlive h.1
      ⟨hes, h.2⟩
  | .if _ _ _, _, hlive, h =>
      ⟨h.1.settled hsc hlive, h.2.1, h.2.2.1.settled hsc hlive, h.2.2.2.settled hsc hlive⟩
  | .while _ _, _, hlive, h => ⟨h.1.settled hsc hlive, h.2.1, h.2.2.settled hsc hlive⟩

theorem Stmt.WellTypedBlock.settled {sc : Scene} (hsc : sc.Valid) {rs : List Ty} :
    ∀ {ss : List Stmt} {live : List LocalId}, (∀ x ∈ live, sc.ctx.Knows x) →
      Stmt.WellTypedBlock sc rs live ss → Stmt.SettledBlock sc rs ss
  | [], _, _, _ => trivial
  | _ :: _, _, hlive, h =>
      ⟨h.1.settled hsc hlive,
        h.2.settled hsc (List.forall_mem_append.2 ⟨h.1.binds_known, hlive⟩)⟩

end

/-- A well-typed module is settled. -/
theorem Module.WellTyped.settled {m : Module} (hm : m.WellTyped) : m.Settled := by
  intro f hf
  have hbody := hm.body hf
  exact ⟨hbody.live_known, hbody.block.settled hbody.valid hbody.live_known⟩

/-! ## Captures do not matter

Validation hands the captures of a closure on as they are. So it is enough if code is settled once its
captures are taken out. -/

mutual

/-- The expression with no captures in its closures. -/
def Expr.withoutCaptures : Expr → Expr
  | .const c i => .const c i
  | .local x i => .local x i
  | .function f i => .function f i
  | .builtin b i => .builtin b i
  | .unary op e i => .unary op e.withoutCaptures i
  | .binary op l r common facts i =>
      .binary op l.withoutCaptures r.withoutCaptures common facts i
  | .call f as i => .call f.withoutCaptures (Expr.withoutCapturesList as) i
  | .index s p b i => .index s.withoutCaptures p.withoutCaptures b i
  | .len e i => .len e.withoutCaptures i
  | .alloc t e s i => .alloc t e.withoutCaptures s i
  | .slice es s i => .slice (Expr.withoutCapturesList es) s i
  | .closure ps rs _ b i => .closure ps rs [] (Stmt.withoutCapturesBlock b) i
termination_by structural e => e

/-- Several expressions with no captures in their closures. -/
def Expr.withoutCapturesList : List Expr → List Expr
  | [] => []
  | e :: es => e.withoutCaptures :: Expr.withoutCapturesList es
termination_by structural es => es

/-- The statement with no captures in its closures. -/
def Stmt.withoutCaptures : Stmt → Stmt
  | .bind x e => .bind x e.withoutCaptures
  | .assign x e => .assign x e.withoutCaptures
  | .store s p v b => .store s.withoutCaptures p.withoutCaptures v.withoutCaptures b
  | .expr e => .expr e.withoutCaptures
  | .return es => .return (Expr.withoutCapturesList es)
  | .if c t e => .if c.withoutCaptures (Stmt.withoutCapturesBlock t) (Stmt.withoutCapturesBlock e)
  | .while c b => .while c.withoutCaptures (Stmt.withoutCapturesBlock b)
  | .break => .break
  | .for x a z b => .for x a.withoutCaptures z.withoutCaptures (Stmt.withoutCapturesBlock b)
termination_by structural s => s

/-- The statements of a block with no captures in their closures. -/
def Stmt.withoutCapturesBlock : List Stmt → List Stmt
  | [] => []
  | s :: ss => s.withoutCaptures :: Stmt.withoutCapturesBlock ss
termination_by structural ss => ss

end

@[simp] theorem Expr.ty_withoutCaptures (e : Expr) : e.withoutCaptures.ty = e.ty := by
  cases e <;> rfl

@[simp] theorem Expr.withoutCapturesList_eq (es : List Expr) :
    Expr.withoutCapturesList es = es.map Expr.withoutCaptures := by
  induction es with
  | nil => rfl
  | cons e es ih => rw [Expr.withoutCapturesList, ih, List.map_cons]

@[simp] theorem Expr.map_ty_withoutCaptures (es : List Expr) :
    (es.map Expr.withoutCaptures).map Expr.ty = es.map Expr.ty := by
  simp only [List.map_map, Function.comp_def, Expr.ty_withoutCaptures]

theorem returned_withoutCaptures (rs : List Ty) (es : List Expr) :
    Validate.returned rs (Expr.withoutCapturesList es) = Validate.returned rs es := by
  rcases es with _ | ⟨e, _ | ⟨e', es⟩⟩ <;>
    simp [Validate.returned, Function.comp_def]

mutual

theorem Expr.Settled.withoutCaptures {sc : Scene} :
    ∀ {e : Expr}, e.Settled sc → e.withoutCaptures.Settled sc
  | .const _ _, h | .local _ _, h | .function _ _, h | .builtin _ _, h => h
  | .unary _ e _, h => ⟨h.1.withoutCaptures, by rw [Expr.ty_withoutCaptures]; exact h.2.1, h.2.2⟩
  | .binary _ l r _ _ _, h => by
      refine ⟨h.1.withoutCaptures, h.2.1.withoutCaptures, ?_⟩
      rw [Expr.ty_withoutCaptures, Expr.ty_withoutCaptures]
      exact h.2.2
  | .call f as i, h => by
      have has : Expr.SettledList sc (Expr.withoutCapturesList as) := h.1.withoutCaptures
      refine ⟨has, ?_⟩
      rw [Expr.withoutCapturesList_eq, Expr.map_ty_withoutCaptures]
      rcases h.2 with ⟨j, rfl, hlen, hrest⟩ | ⟨hf, hrest⟩
      · exact .inl ⟨j, rfl, by rw [List.length_map, hlen], hrest⟩
      · exact .inr ⟨hf.withoutCaptures, by rw [Expr.ty_withoutCaptures]; exact hrest⟩
  | .index _ _ _ _, h => by
      refine ⟨h.1.withoutCaptures, h.2.1.withoutCaptures, ?_⟩
      rw [Expr.ty_withoutCaptures, Expr.ty_withoutCaptures]
      exact h.2.2
  | .len _ _, h => ⟨h.1.withoutCaptures, by rw [Expr.ty_withoutCaptures]; exact h.2.1, h.2.2⟩
  | .alloc _ _ _ _, h => ⟨h.1.withoutCaptures, by rw [Expr.ty_withoutCaptures]; exact h.2.1, h.2.2⟩
  | .slice es _ _, h => by
      have hes : Expr.SettledList sc (Expr.withoutCapturesList es) := h.1.withoutCaptures
      obtain ⟨-, hv, t, hi, hall⟩ := h
      refine ⟨hes, hv, t, hi, ?_⟩
      simpa using hall
  | .closure _ _ _ _ _, h => ⟨h.1, by simp, h.2.2.1.withoutCaptures, h.2.2.2⟩

theorem Expr.SettledList.withoutCaptures {sc : Scene} : ∀ {es : List Expr},
    Expr.SettledList sc es → Expr.SettledList sc (Expr.withoutCapturesList es)
  | [], _ => trivial
  | _ :: _, h => ⟨h.1.withoutCaptures, h.2.withoutCaptures⟩

theorem Stmt.Settled.withoutCaptures {sc : Scene} {rs : List Ty} :
    ∀ {s : Stmt}, s.Settled sc rs → s.withoutCaptures.Settled sc rs
  | .bind _ _, h | .assign _ _, h =>
      ⟨h.1.withoutCaptures, h.2.1, by rw [Expr.ty_withoutCaptures]; exact h.2.2⟩
  | .store _ _ _ _, h => by
      refine ⟨h.1.withoutCaptures, h.2.1.withoutCaptures, h.2.2.1.withoutCaptures, ?_⟩
      simp only [Expr.ty_withoutCaptures]
      exact h.2.2.2
  | .expr e, h => Expr.Settled.withoutCaptures (e := e) h
  | .return es, h => by
      have hes : Expr.SettledList sc (Expr.withoutCapturesList es) := h.1.withoutCaptures
      refine ⟨hes, ?_⟩
      rw [returned_withoutCaptures]
      exact h.2
  | .if _ _ _, h =>
      ⟨h.1.withoutCaptures, by rw [Expr.ty_withoutCaptures]; exact h.2.1, h.2.2.1.withoutCaptures,
        h.2.2.2.withoutCaptures⟩
  | .while _ _, h =>
      ⟨h.1.withoutCaptures, by rw [Expr.ty_withoutCaptures]; exact h.2.1, h.2.2.withoutCaptures⟩
  | .break, h => h
  | .for _ _ _ _, h => by
      obtain ⟨ha, hz, hat, hzt, hk, hx, hb⟩ := h
      refine ⟨ha.withoutCaptures, hz.withoutCaptures, ?_, ?_, hk, hx, hb.withoutCaptures⟩
      · rw [Expr.ty_withoutCaptures, hat]
      · rw [Expr.ty_withoutCaptures, hzt]

theorem Stmt.SettledBlock.withoutCaptures {sc : Scene} {rs : List Ty} : ∀ {ss : List Stmt},
    Stmt.SettledBlock sc rs ss → Stmt.SettledBlock sc rs (Stmt.withoutCapturesBlock ss)
  | [], _ => trivial
  | _ :: _, h => ⟨h.1.withoutCaptures, h.2.withoutCaptures⟩

end

/-- The function with no captures in its closures. -/
def Function.withoutCaptures (f : Function) : Function :=
  { f with body := Stmt.withoutCapturesBlock f.body }

/-- The module with no captures in its closures. -/
def Module.withoutCaptures (m : Module) : Module := ⟨m.functions.map Function.withoutCaptures⟩

theorem Module.signatures_withoutCaptures (m : Module) :
    Validate.signatures m.withoutCaptures = Validate.signatures m := by
  simp only [Validate.signatures, Module.withoutCaptures, List.map_map]
  rfl

/-- A settled module is settled without its captures. -/
theorem Module.Settled.withoutCaptures {m : Module} (hm : m.Settled) : m.withoutCaptures.Settled := by
  intro g hg
  obtain ⟨f, hf, rfl⟩ := List.mem_map.1 hg
  rw [Module.signatures_withoutCaptures]
  exact ⟨(hm f hf).1, (hm f hf).2.withoutCaptures⟩

/-! ## Validation of settled code -/

namespace Validate

theorem operandTy_of_settled {op : BinaryOp} {l : Expr} {rty t : Ty} {common : Option Ty}
    (h : OperatorTy op l.ty rty (if op = .map then none else common) t)
    (ht : t.hasInvalid = false) : operandTy op l t common = common := by
  by_cases hop : op = .map
  · subst hop
    rfl
  · rw [if_neg hop] at h
    exact operandTy_of_operatorTy h ht

theorem allocTy_of_int {t : Ty} {n : Expr} (hn : n.ty = .i64) (ht : t.hasInvalid = false) :
    allocTy t n = pure (.slice t) := by
  simp [allocTy, hn, expect_self, Ty.sliceOf, Ty.ne_invalid_of_hasInvalid ht]

theorem store_of_slice {s p v : Expr} (hs : s.ty = .slice v.ty) (hp : p.ty = .i64) :
    store s p v = pure () := by
  simp [store, hs, hp, expect_self, Ty.element?]

theorem range_of_int {ctx : Context} {x : LocalId} {a z : Expr} (ha : a.ty = .i64)
    (hz : z.ty = .i64) (hx : ctx.typeOf x = .i64) : range ctx x a z = pure () := by
  simp [range, ha, hz, hx, expect_self]

theorem info_eq {i : Info} {t : Ty} (h : i.ty = t) : (⟨t, i.span⟩ : Info) = i := by
  cases i
  simp_all

mutual

/-- Validation leaves an expression as it is that is settled without its captures. -/
theorem expr_of_settled {sc : Scene} : ∀ e : Expr, e.withoutCaptures.Settled sc →
    expr sc e = pure e
  | .const c i, h => by
      simp only [Expr.withoutCaptures, Expr.Settled] at h
      simp only [expr, info_eq h]
  | .local x i, h => by
      simp only [Expr.withoutCaptures, Expr.Settled] at h
      simp only [expr, info_eq h.2.1]
  | .function f i, h => by
      simp only [Expr.withoutCaptures, Expr.Settled] at h
      simp only [expr, functionTy, h.1, pure_bind]
  | .builtin b i, h => by
      simp only [Expr.withoutCaptures, Expr.Settled] at h
      obtain ⟨rfl, hi⟩ := h
      simp only [expr, builtinTy, pure_bind, info_eq hi]
  | .unary op e i, h => by
      simp only [Expr.withoutCaptures, Expr.Settled, Expr.ty_withoutCaptures] at h
      obtain ⟨he, hty, hi⟩ := h
      simp only [expr, expr_of_settled e he, pure_bind, unaryTy_of_eq hty, info_eq hi]
  | .binary op l r common facts i, h => by
      simp only [Expr.withoutCaptures, Expr.Settled, Expr.ty_withoutCaptures] at h
      obtain ⟨hl, hr, hop⟩ := h
      have hlv := hl.valid
      have hrv := hr.valid
      rw [Expr.ty_withoutCaptures] at hlv hrv
      simp only [expr, expr_of_settled l hl, expr_of_settled r hr, pure_bind,
        binaryTy_of_operatorTy i.span hop hlv hrv, operandTy_of_settled hop (hop.valid hrv)]
  | .call f as i, h => by
      simp only [Expr.withoutCaptures, Expr.Settled] at h
      obtain ⟨has, ⟨j, hprint, hlen, hj, hi⟩ | ⟨hf, rs, hty, hi⟩⟩ := h
      · obtain rfl : f = .builtin .println j := by
          cases f <;> simp_all [Expr.withoutCaptures]
        simp only [Expr.withoutCapturesList_eq, List.length_map, Expr.map_ty_withoutCaptures] at hlen hj
        simp only [expr, exprs_of_settled as has, pure_bind, printTy, hlen, ne_eq,
          not_true_eq_false, if_false, info_eq hi, info_eq hj]
      · have hne : ∀ j, f ≠ .builtin .println j := by
          rintro j rfl
          simp [Expr.withoutCaptures, Expr.Settled] at hf
        have hav : ∀ a ∈ as, a.ty.hasInvalid = false := by
          rw [Expr.settledList_iff] at has
          intro a ha
          rw [← Expr.ty_withoutCaptures]
          exact (has _ (by rw [Expr.withoutCapturesList_eq]; exact List.mem_map_of_mem ha)).valid
        simp only [Expr.ty_withoutCaptures, Expr.withoutCapturesList_eq,
          Expr.map_ty_withoutCaptures] at hty
        -- the equation for calls holds of every callee but `println`
        rw [expr]
        · simp only [exprs_of_settled as has, expr_of_settled f hf, pure_bind,
            callTy_of_func i.span hty hav, info_eq hi]
        · exact hne
  | .index s p b i, h => by
      simp only [Expr.withoutCaptures, Expr.Settled, Expr.ty_withoutCaptures] at h
      obtain ⟨hs, hp, hst, hpt⟩ := h
      simp only [expr, expr_of_settled s hs, expr_of_settled p hp, pure_bind,
        indexTy_of_slice hst hpt]
  | .len e i, h => by
      simp only [Expr.withoutCaptures, Expr.Settled, Expr.ty_withoutCaptures] at h
      obtain ⟨he, ⟨t, ht⟩, hi⟩ := h
      simp only [expr, expr_of_settled e he, pure_bind, lenTy_of_slice ht, info_eq hi]
  | .alloc t e s i, h => by
      simp only [Expr.withoutCaptures, Expr.Settled, Expr.ty_withoutCaptures] at h
      obtain ⟨he, het, hi, ht⟩ := h
      simp only [expr, expr_of_settled e he, pure_bind, allocTy_of_int het ht, info_eq hi]
  | .slice es s i, h => by
      simp only [Expr.withoutCaptures, Expr.Settled] at h
      obtain ⟨hes, hv, t, hi, hall⟩ := h
      rw [hi] at hv
      have hall' : ∀ e ∈ es, e.ty = t := by simpa using hall
      simp only [expr, exprs_of_settled es hes, pure_bind, hi, sliceTy_of_forall i.span hall' hv,
        info_eq hi]
  | .closure ps rs cs b i, h => by
      -- validation does not look at captures, so it does not matter that they were taken away
      simp only [Expr.withoutCaptures, Expr.Settled] at h
      obtain ⟨-, -, hb, hi, -⟩ := h
      simp only [expr, block_of_settled rs b hb, pure_bind, info_eq hi]

theorem exprs_of_settled {sc : Scene} : ∀ es : List Expr,
    Expr.SettledList sc (Expr.withoutCapturesList es) → exprs sc es = pure es
  | [], _ => rfl
  | e :: es, h => by
      simp only [exprs, expr_of_settled e h.1, exprs_of_settled es h.2, pure_bind]

/-- Validation leaves a statement as it is that is settled without its captures. -/
theorem stmt_of_settled {sc : Scene} (rs : List Ty) :
    ∀ s : Stmt, s.withoutCaptures.Settled sc rs → stmt sc rs s = pure s
  | .bind x e, h | .assign x e, h => by
      simp only [Stmt.withoutCaptures, Stmt.Settled, Expr.ty_withoutCaptures] at h
      simp only [stmt, expr_of_settled e h.1, pure_bind, bound_of_eq h.2.2]
  | .store s p v b, h => by
      simp only [Stmt.withoutCaptures, Stmt.Settled, Expr.ty_withoutCaptures] at h
      obtain ⟨hs, hp, hv, hst, hpt⟩ := h
      simp only [stmt, expr_of_settled s hs, expr_of_settled p hp, expr_of_settled v hv, pure_bind,
        store_of_slice hst hpt]
  | .expr e, h => by
      simp only [Stmt.withoutCaptures, Stmt.Settled] at h
      simp only [stmt, expr_of_settled e h, pure_bind]
  | .return es, h => by
      simp only [Stmt.withoutCaptures, Stmt.Settled, returned_withoutCaptures] at h
      simp only [stmt, exprs_of_settled es h.1, pure_bind, return_of_returned h.2]
  | .if c t e, h => by
      simp only [Stmt.withoutCaptures, Stmt.Settled, Expr.ty_withoutCaptures] at h
      obtain ⟨hc, hct, ht, he⟩ := h
      simp only [stmt, expr_of_settled c hc, pure_bind, condition_of_bool hct,
        block_of_settled rs t ht, block_of_settled rs e he]
  | .while c b, h => by
      simp only [Stmt.withoutCaptures, Stmt.Settled, Expr.ty_withoutCaptures] at h
      obtain ⟨hc, hct, hb⟩ := h
      simp only [stmt, expr_of_settled c hc, pure_bind, condition_of_bool hct,
        block_of_settled rs b hb]
  | .break, _ => rfl
  | .for x a z b, h => by
      simp only [Stmt.withoutCaptures, Stmt.Settled, Expr.ty_withoutCaptures] at h
      obtain ⟨ha, hz, hat, hzt, -, hxt, hb⟩ := h
      simp only [stmt, expr_of_settled a ha, expr_of_settled z hz, pure_bind,
        range_of_int hat hzt hxt, block_of_settled rs b hb]

theorem block_of_settled {sc : Scene} (rs : List Ty) : ∀ ss : List Stmt,
    Stmt.SettledBlock sc rs (Stmt.withoutCapturesBlock ss) → block sc rs ss = pure ss
  | [], _ => rfl
  | s :: ss, h => by
      simp only [block, stmt_of_settled rs s h.1, block_of_settled rs ss h.2, pure_bind]

end

end Validate

/-- **Validation leaves a module as it is and reports nothing if the module is settled without its
captures.** -/
theorem Module.validate_of_settled_withoutCaptures {m : Module} (hm : m.withoutCaptures.Settled) :
    m.validate = pure m := by
  have hf : ∀ f ∈ m.functions, Function.validate (Validate.signatures m) f = pure f := by
    intro f hf
    have hbody := (hm f.withoutCaptures (List.mem_map_of_mem hf)).2
    rw [Module.signatures_withoutCaptures] at hbody
    have hblock : Validate.block ⟨f.ctx, Validate.signatures m⟩ f.results f.body = pure f.body :=
      Validate.block_of_settled f.results f.body hbody
    simp only [Function.validate, hblock, pure_bind]
  have hall : ∀ fs : List Function,
      (∀ f ∈ fs, Function.validate (Validate.signatures m) f = pure f) →
      fs.mapM (Function.validate (Validate.signatures m)) = pure fs := by
    intro fs hfs
    induction fs with
    | nil => rfl
    | cons f fs ih =>
        simp only [List.mem_cons, forall_eq_or_imp] at hfs
        simp only [List.mapM_cons, hfs.1, ih hfs.2, pure_bind]
  simp only [Module.validate, hall m.functions hf, pure_bind]

/-- **Validation leaves a settled module as it is and reports nothing.** -/
theorem Module.validate_of_settled {m : Module} (hm : m.Settled) : m.validate = pure m :=
  Module.validate_of_settled_withoutCaptures hm.withoutCaptures

/-- **Validation leaves a well-typed module as it is and reports nothing.** -/
theorem Module.validate_of_wellTyped {m : Module} (hm : m.WellTyped) : m.validate = pure m :=
  Module.validate_of_settled hm.settled

end Rivulet.Ir
