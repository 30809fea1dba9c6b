import Rivulet.Ir.Validate.Module
import Rivulet.Proofs.Typing.Counterpart

set_option autoImplicit false

/-! # Well-typed code

What it means for intermediate code to be well typed, said rule by rule and without a checker. The
judgement is about code as it comes from a program, before maps are lowered: there are no
allocations, stores, counted loops and breaks in it, and every subscript is checked.

A piece of code is judged in a `Scene`, which gives types to locals and functions, and relative to
the locals that are `live`, that is, bound to a cell when the code is run. The two go together: the
types alone do not say that a local is bound before it is read. Inside of a closure only its
parameters and captures are live at first, whatever is in scope around it.

`Expr.WellTyped`, `Stmt.WellTyped` and their list forms are recursive functions into `Prop`, so a
rule is read off by unfolding. Validation accepts well-typed code (`Proofs/Code/Validation`), and
running it is safe (`Proofs/Machine/Safety`). -/

namespace Rivulet.Ir

open Validate (Scene)

/-! ## What a statement does to the statements after it -/

/-- The locals that a statement binds for the statements after it. -/
def Stmt.binds : Stmt → List LocalId
  | .bind x _ => [x]
  | _ => []

mutual

/-- Whether every path through a statement ends in a return. -/
def Stmt.returns : Stmt → Bool
  | .return _ => true
  | .if _ t e => Stmt.anyReturns t && Stmt.anyReturns e
  | _ => false
termination_by structural s => s

/-- Whether every path through a block ends in a return. -/
def Stmt.anyReturns : List Stmt → Bool
  | [] => false
  | s :: ss => s.returns || Stmt.anyReturns ss
termination_by structural ss => ss

end

/-! ## The rules -/

/-- Whether a local is in the table. -/
def Context.Knows (ctx : Context) (x : LocalId) : Prop := x.index < ctx.locals.size

/-- The rule of a binary operator: its operands have the types `l` and `r`, their recorded common
type is `common`, and the result has type `t`. -/
def OperatorTy (op : BinaryOp) (l r : Ty) (common : Option Ty) (t : Ty) : Prop :=
  (op = .map ∧ common = none ∧ ∃ e u, l = .slice e ∧ r = .func [e] [u] ∧ t = .slice u) ∨
    (op ≠ .map ∧ common = some l ∧ l = r ∧ Typing.homogeneous? op.rule l = some t)

/-- The rule of a map. -/
theorem OperatorTy.of_map {l r t : Ty} {common : Option Ty} (h : OperatorTy .map l r common t) :
    ∃ e u, l = .slice e ∧ r = .func [e] [u] ∧ t = .slice u := by
  rcases h with ⟨-, -, hmap⟩ | ⟨hne, -⟩
  · exact hmap
  · exact absurd rfl hne

mutual

/-- An expression is well typed. -/
def Expr.WellTyped (sc : Scene) (live : List LocalId) : Expr → Prop
  | .const c i => i.ty = Validate.constTy c
  | .local x i => x ∈ live ∧ i.ty = sc.ctx.typeOf x
  | .function f i => sc.signatures.lookup f = some i.ty
  | .builtin b i => b = .str ∧ i.ty = .func [.i64] [.str]
  | .unary op e i =>
      e.WellTyped sc live ∧ e.ty = Validate.unaryOperandTy op ∧ i.ty = Validate.unaryOperandTy op
  | .binary op l r common _ i =>
      l.WellTyped sc live ∧ r.WellTyped sc live ∧ OperatorTy op l.ty r.ty common i.ty
  | .call f as i =>
      Expr.WellTypedList sc live as ∧
        ((∃ j, f = .builtin .println j ∧ as.length = 1 ∧ j.ty = .func (as.map Expr.ty) [] ∧
            i.ty = .unit) ∨
          (f.WellTyped sc live ∧ ∃ rs, f.ty = .func (as.map Expr.ty) rs ∧ i.ty = .ofResults rs))
  | .index s p b i =>
      s.WellTyped sc live ∧ p.WellTyped sc live ∧ b = .checked ∧ s.ty = .slice i.ty ∧ p.ty = .i64
  | .len e i => e.WellTyped sc live ∧ (∃ t, e.ty = .slice t) ∧ i.ty = .i64
  | .alloc _ _ _ _ => False
  | .slice es _ i =>
      Expr.WellTypedList sc live es ∧ i.ty.hasInvalid = false ∧
        ∃ t, i.ty = .slice t ∧ ∀ e ∈ es, e.ty = t
  | .closure ps rs cs b i =>
      (∀ x ∈ ps, sc.ctx.Knows x) ∧ cs ⊆ live ∧ Ty.anyInvalid rs = false ∧
        Stmt.WellTypedBlock sc rs (ps ++ cs) b ∧ (rs ≠ [] → Stmt.anyReturns b = true) ∧
        i.ty = .func (ps.map sc.ctx.typeOf) rs
termination_by structural e => e

/-- Every expression of a list is well typed. -/
def Expr.WellTypedList (sc : Scene) (live : List LocalId) : List Expr → Prop
  | [] => True
  | e :: es => e.WellTyped sc live ∧ Expr.WellTypedList sc live es
termination_by structural es => es

/-- A statement is well typed, in a function or closure with the results `rs`. -/
def Stmt.WellTyped (sc : Scene) (rs : List Ty) (live : List LocalId) : Stmt → Prop
  | .bind x e => e.WellTyped sc live ∧ sc.ctx.Knows x ∧ e.ty = sc.ctx.typeOf x
  | .assign x e => e.WellTyped sc live ∧ x ∈ live ∧ e.ty = sc.ctx.typeOf x
  | .store _ _ _ _ => False
  | .expr e => e.WellTyped sc live
  | .return es => Expr.WellTypedList sc live es ∧ Validate.returned rs es = rs
  | .if c t e =>
      c.WellTyped sc live ∧ c.ty = .bool ∧ Stmt.WellTypedBlock sc rs live t ∧
        Stmt.WellTypedBlock sc rs live e
  | .while c b => c.WellTyped sc live ∧ c.ty = .bool ∧ Stmt.WellTypedBlock sc rs live b
  | .break => False
  | .for _ _ _ _ => False
termination_by structural s => s

/-- A block is well typed. -/
def Stmt.WellTypedBlock (sc : Scene) (rs : List Ty) (live : List LocalId) : List Stmt → Prop
  | [] => True
  | s :: ss => s.WellTyped sc rs live ∧ Stmt.WellTypedBlock sc rs (s.binds ++ live) ss
termination_by structural ss => ss

end

theorem Expr.wellTypedList_iff {sc : Scene} {live : List LocalId} (es : List Expr) :
    Expr.WellTypedList sc live es ↔ ∀ e ∈ es, e.WellTyped sc live := by
  induction es with
  | nil => simp [Expr.WellTypedList]
  | cons e es ih => simp [Expr.WellTypedList, ih]

/-- What a well-typed statement binds is in the table. -/
theorem Stmt.WellTyped.binds_known {sc : Scene} {rs : List Ty} {live : List LocalId} {s : Stmt}
    (h : s.WellTyped sc rs live) : ∀ x ∈ s.binds, sc.ctx.Knows x := by
  intro x hx
  cases s with
  | bind y e =>
      obtain rfl : x = y := by simpa [Stmt.binds] using hx
      exact h.2.1
  | _ => simp [Stmt.binds] at hx

/-! ## Functions and modules -/

/-- The types in a scene are valid: those of all functions, and those of all locals in the table. -/
structure Validate.Scene.Valid (sc : Scene) : Prop where
  known : ∀ x, sc.ctx.Knows x → (sc.ctx.typeOf x).hasInvalid = false
  signature : ∀ f t, sc.signatures.lookup f = some t → t.hasInvalid = false
  callable : ∀ f t, sc.signatures.lookup f = some t → ∃ ps rs, t = .func ps rs

/-- A valid scene without temporaries that knows the locals `live`. -/
structure Validate.Scene.Declares (sc : Scene) (live : List LocalId) : Prop where
  valid : sc.Valid
  no_temps : ∀ x, sc.ctx.Knows x → sc.ctx.isTemp x = false
  known : ∀ x ∈ live, sc.ctx.Knows x

theorem Validate.Scene.Declares.append {sc : Scene} {xs live : List LocalId} (h : sc.Declares live)
    (hxs : ∀ x ∈ xs, sc.ctx.Knows x) : sc.Declares (xs ++ live) :=
  ⟨h.valid, h.no_temps, List.forall_mem_append.2 ⟨hxs, h.known⟩⟩

theorem Validate.Scene.Declares.subset {sc : Scene} {xs live : List LocalId} (h : sc.Declares live)
    (hxs : xs ⊆ live) : sc.Declares xs :=
  ⟨h.valid, h.no_temps, fun x hx => h.known x (hxs hx)⟩

/-- A body that can be run, of a function or a closure: it is well typed in a valid scene without
temporaries, and it returns if there are results to be returned. -/
structure Stmt.WellTypedBody (sc : Scene) (rs : List Ty) (live : List LocalId)
    (body : List Stmt) : Prop where
  valid : sc.Valid
  declared : ∀ x, sc.ctx.Knows x → sc.ctx.isTemp x = false
  live_known : ∀ x ∈ live, sc.ctx.Knows x
  block : Stmt.WellTypedBlock sc rs live body
  returns : rs ≠ [] → Stmt.anyReturns body = true

theorem Stmt.WellTypedBody.declares {sc : Scene} {rs : List Ty} {live : List LocalId}
    {body : List Stmt} (h : Stmt.WellTypedBody sc rs live body) : sc.Declares live :=
  ⟨h.valid, h.declared, h.live_known⟩

/-- A function is well typed, given the functions it may call. -/
structure Function.WellTyped (sigs : Validate.Signatures) (f : Function) : Prop where
  /-- The types of its locals are valid. -/
  locals_valid : ∀ x, f.ctx.Knows x → (f.ctx.typeOf x).hasInvalid = false
  /-- Its table holds no temporaries yet. -/
  locals_declared : ∀ x, f.ctx.Knows x → f.ctx.isTemp x = false
  params_known : ∀ x ∈ f.params, f.ctx.Knows x
  results_valid : Ty.anyInvalid f.results = false
  body : Stmt.WellTypedBlock ⟨f.ctx, sigs⟩ f.results f.params f.body
  returns : f.results ≠ [] → Stmt.anyReturns f.body = true

/-- A module is well typed. -/
def Module.WellTyped (m : Module) : Prop :=
  ∀ f ∈ m.functions, f.WellTyped (Validate.signatures m)

/-! ## Types are valid -/

theorem Ty.hasInvalid_ofResults {rs : List Ty} (h : Ty.anyInvalid rs = false) :
    (Ty.ofResults rs).hasInvalid = false := by
  match rs, h with
  | [], _ => rfl
  | [t], h => simpa [Ty.anyInvalid, Ty.ofResults] using h
  | t :: u :: rs, h => exact h

theorem OperatorTy.valid {op : BinaryOp} {l r t : Ty} {common : Option Ty}
    (h : OperatorTy op l r common t) (hr : r.hasInvalid = false) : t.hasInvalid = false := by
  rcases h with ⟨-, -, e, u, -, rfl, rfl⟩ | ⟨-, -, -, hh⟩
  · simp only [Ty.hasInvalid, Ty.anyInvalid, Bool.or_false, Bool.or_eq_false_iff] at hr ⊢
    exact hr.2
  · cases hop : op.rule with
    | map => rw [hop] at hh; simp [Typing.homogeneous?] at hh
    | _ =>
        rw [hop] at hh
        simp only [Typing.homogeneous?, TypeShape.int, TypeShape.bool, TypeShape.str] at hh
        split at hh
        · rename_i hl
          cases hh
          first
          | rfl
          | (subst hl; rfl)
          | (rcases hl with rfl | rfl <;> rfl)
        · cases hh

/-- The type of a well-typed expression is valid. -/
theorem Expr.WellTyped.valid {sc : Scene} (hsc : sc.Valid) {live : List LocalId}
    (hlive : ∀ x ∈ live, sc.ctx.Knows x) :
    ∀ {e : Expr}, e.WellTyped sc live → e.ty.hasInvalid = false
  | .const c i, h => by
      simp only [Expr.WellTyped] at h
      simp only [Expr.ty, Expr.info, h]
      cases c <;> rfl
  | .local x i, h => by
      simp only [Expr.WellTyped] at h
      simp only [Expr.ty, Expr.info, h.2]
      exact hsc.known x (hlive x h.1)
  | .function f i, h => hsc.signature f _ h
  | .builtin b i, h => by
      simp only [Expr.WellTyped] at h
      simp only [Expr.ty, Expr.info, h.2]
      rfl
  | .unary op e i, h => by
      simp only [Expr.WellTyped] at h
      simp only [Expr.ty, Expr.info, h.2.2]
      cases op <;> rfl
  | .binary op l r common facts i, h => by
      simp only [Expr.WellTyped] at h
      exact h.2.2.valid (Expr.WellTyped.valid hsc hlive h.2.1)
  | .call f as i, h => by
      simp only [Expr.WellTyped] at h
      rcases h.2 with ⟨j, -, -, -, hi⟩ | ⟨hf, rs, hty, hi⟩
      · simp only [Expr.ty, Expr.info, hi]
        rfl
      · -- the results are part of the type of the callee
        have hv := Expr.WellTyped.valid hsc hlive hf
        rw [hty] at hv
        simp only [Ty.hasInvalid, Bool.or_eq_false_iff] at hv
        simp only [Expr.ty, Expr.info, hi]
        exact Ty.hasInvalid_ofResults hv.2
  | .index s p b i, h => by
      simp only [Expr.WellTyped] at h
      have hv := Expr.WellTyped.valid hsc hlive h.1
      rw [h.2.2.2.1] at hv
      exact hv
  | .len e i, h => by
      simp only [Expr.WellTyped] at h
      simp only [Expr.ty, Expr.info, h.2.2]
      rfl
  | .slice es s i, h => by
      simp only [Expr.WellTyped] at h
      exact h.2.1
  | .closure ps rs cs b i, h => by
      simp only [Expr.WellTyped] at h
      obtain ⟨hps, -, hrs, -, -, hi⟩ := h
      have hps' : Ty.anyInvalid (ps.map sc.ctx.typeOf) = false := by
        rw [Ty.anyInvalid_eq_false_iff]
        intro t ht
        obtain ⟨x, hx, rfl⟩ := List.mem_map.1 ht
        exact hsc.known x (hps x hx)
      simp only [Expr.ty, Expr.info, hi, Ty.hasInvalid, hps', hrs, Bool.or_self]

end Rivulet.Ir
