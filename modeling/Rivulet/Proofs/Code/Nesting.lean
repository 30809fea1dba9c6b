import Rivulet.Ir.Placement

set_option autoImplicit false

/-! # Where statements stand

`Stmt.StandsIn s ss` says that the statement `s` stands somewhere in the block `ss`: among its
statements, in a block of one of them, or in the body of a closure that occurs in one of their
expressions, however deep. It is the relation in which statements about "every assignment of a
function" are made. `Stmt.bindingsList` lists exactly the bindings and assignments that stand in a
block (`Stmt.mem_bindingsList_iff`). -/

namespace Rivulet.Ir

/-- A statement stands somewhere in a block. -/
inductive Stmt.StandsIn (s : Stmt) : List Stmt → Prop
  | here {ss : List Stmt} (h : s ∈ ss) : StandsIn s ss
  | thenBlock {ss : List Stmt} {c : Expr} {t e : List Stmt} (h : .if c t e ∈ ss)
      (hs : StandsIn s t) : StandsIn s ss
  | elseBlock {ss : List Stmt} {c : Expr} {t e : List Stmt} (h : .if c t e ∈ ss)
      (hs : StandsIn s e) : StandsIn s ss
  | whileBody {ss : List Stmt} {c : Expr} {b : List Stmt} (h : .while c b ∈ ss)
      (hs : StandsIn s b) : StandsIn s ss
  | forBody {ss : List Stmt} {x : LocalId} {a z : Expr} {b : List Stmt} (h : .for x a z b ∈ ss)
      (hs : StandsIn s b) : StandsIn s ss
  | closureBody {ss : List Stmt} {ps : List LocalId} {rs : List Ty} {cs : List LocalId}
      {b : List Stmt} {i : Info} (h : .closure ps rs cs b i ∈ Stmt.partsList ss)
      (hs : StandsIn s b) : StandsIn s ss

/-- A local is bound or assigned somewhere in a block, to this value. -/
def Stmt.Binds (ss : List Stmt) (x : LocalId) (v : Expr) : Prop :=
  Stmt.StandsIn (.bind x v) ss ∨ Stmt.StandsIn (.assign x v) ss

/-- Some statement in a block assigns to a local. -/
def Stmt.Assigns (ss : List Stmt) (x : LocalId) : Prop :=
  ∃ v, Stmt.StandsIn (.assign x v) ss

/-! ## Blocks in blocks -/

section Blocks

variable {s : Stmt} {ss : List Stmt}

theorem Stmt.mem_partsList_iff {e : Expr} (ss : List Stmt) :
    e ∈ Stmt.partsList ss ↔ ∃ s ∈ ss, e ∈ s.parts := by
  induction ss with
  | nil => simp [Stmt.partsList]
  | cons s ss ih => simp [Stmt.partsList, ih]

/-- What stands in a block stands in every block that has its statements. -/
theorem Stmt.StandsIn.mono {ss' : List Stmt} (h : Stmt.StandsIn s ss) (hsub : ss ⊆ ss') :
    Stmt.StandsIn s ss' := by
  cases h with
  | here h => exact .here (hsub h)
  | thenBlock h hs => exact .thenBlock (hsub h) hs
  | elseBlock h hs => exact .elseBlock (hsub h) hs
  | whileBody h hs => exact .whileBody (hsub h) hs
  | forBody h hs => exact .forBody (hsub h) hs
  | closureBody h hs =>
      obtain ⟨t, ht, he⟩ := (Stmt.mem_partsList_iff _).1 h
      exact .closureBody ((Stmt.mem_partsList_iff _).2 ⟨t, hsub ht, he⟩) hs

end Blocks

/-! ## Bindings -/

section Closures

variable {ps : List LocalId} {rs : List Ty} {cs : List LocalId} {body : List Stmt} {i : Info}
  {b : Binding}

mutual

theorem Expr.mem_bindings_of_closure (hb : b ∈ Stmt.bindingsList body) : ∀ e : Expr,
    .closure ps rs cs body i ∈ e.parts → b ∈ e.bindings
  | .const _ _, h | .local _ _, h | .function _ _, h | .builtin _ _, h => by
      simp [Expr.parts] at h
  | .unary _ e _, h | .len e _, h | .alloc _ e _ _, h => by
      simp only [Expr.parts, List.mem_cons, reduceCtorEq, false_or] at h
      exact Expr.mem_bindings_of_closure hb e h
  | .binary _ l r _ _ _, h | .index l r _ _, h => by
      simp only [Expr.parts, List.mem_cons, reduceCtorEq, false_or, List.mem_append] at h
      exact List.mem_append.2
        (h.imp (Expr.mem_bindings_of_closure hb l) (Expr.mem_bindings_of_closure hb r))
  | .call f as _, h => by
      simp only [Expr.parts, List.mem_cons, reduceCtorEq, false_or, List.mem_append] at h
      exact List.mem_append.2
        (h.imp (Expr.mem_bindings_of_closure hb f) (Expr.mem_bindingsList_of_closure hb as))
  | .slice es _ _, h => by
      simp only [Expr.parts, List.mem_cons, reduceCtorEq, false_or] at h
      exact Expr.mem_bindingsList_of_closure hb es h
  | .closure _ _ _ inner _, h => by
      rw [Expr.parts, List.mem_cons] at h
      rcases h with h | h
      · cases h
        exact hb
      · exact Stmt.mem_bindingsList_of_closure hb inner h

theorem Expr.mem_bindingsList_of_closure (hb : b ∈ Stmt.bindingsList body) : ∀ es : List Expr,
    .closure ps rs cs body i ∈ Expr.partsList es → b ∈ Expr.bindingsList es
  | [], h => by simp [Expr.partsList] at h
  | e :: es, h =>
      List.mem_append.2 ((List.mem_append.1 h).imp (Expr.mem_bindings_of_closure hb e)
        (Expr.mem_bindingsList_of_closure hb es))

theorem Stmt.mem_bindings_of_closure (hb : b ∈ Stmt.bindingsList body) : ∀ s : Stmt,
    .closure ps rs cs body i ∈ s.parts → b ∈ s.bindings
  | .bind _ e, h | .assign _ e, h =>
      List.mem_cons_of_mem _ (Expr.mem_bindings_of_closure hb e h)
  | .expr e, h => Expr.mem_bindings_of_closure hb e h
  | .store s p v _, h => by
      simp only [Stmt.parts, List.mem_append] at h
      simp only [Stmt.bindings, List.mem_append]
      exact h.imp (fun h => h.imp (Expr.mem_bindings_of_closure hb s)
        (Expr.mem_bindings_of_closure hb p)) (Expr.mem_bindings_of_closure hb v)
  | .return es, h => Expr.mem_bindingsList_of_closure hb es h
  | .if c t e, h => by
      simp only [Stmt.parts, List.mem_append] at h
      simp only [Stmt.bindings, List.mem_append]
      exact h.imp (fun h => h.imp (Expr.mem_bindings_of_closure hb c)
        (Stmt.mem_bindingsList_of_closure hb t)) (Stmt.mem_bindingsList_of_closure hb e)
  | .while c d, h =>
      List.mem_append.2 ((List.mem_append.1 h).imp (Expr.mem_bindings_of_closure hb c)
        (Stmt.mem_bindingsList_of_closure hb d))
  | .break, h => by simp [Stmt.parts] at h
  | .for _ a z d, h => by
      simp only [Stmt.parts, List.mem_append] at h
      simp only [Stmt.bindings, List.mem_append]
      exact h.imp (fun h => h.imp (Expr.mem_bindings_of_closure hb a)
        (Expr.mem_bindings_of_closure hb z)) (Stmt.mem_bindingsList_of_closure hb d)

theorem Stmt.mem_bindingsList_of_closure (hb : b ∈ Stmt.bindingsList body) : ∀ ss : List Stmt,
    .closure ps rs cs body i ∈ Stmt.partsList ss → b ∈ Stmt.bindingsList ss
  | [], h => by simp [Stmt.partsList] at h
  | s :: ss, h =>
      List.mem_append.2 ((List.mem_append.1 h).imp (Stmt.mem_bindings_of_closure hb s)
        (Stmt.mem_bindingsList_of_closure hb ss))

end

end Closures

section Bindings

variable {x : LocalId} {v : Expr}

theorem Stmt.mem_bindingsList_of_mem {b : Binding} {ss : List Stmt} {s : Stmt} (hs : s ∈ ss)
    (h : b ∈ s.bindings) : b ∈ Stmt.bindingsList ss := by
  induction ss with
  | nil => cases hs
  | cons t ss ih =>
      rw [Stmt.bindingsList, List.mem_append]
      rcases List.mem_cons.1 hs with rfl | hs
      · exact .inl h
      · exact .inr (ih hs)

/-- What is bound where a statement stands is bound in the whole block. -/
theorem Stmt.StandsIn.mem_bindings {b : Binding} {s : Stmt} {ss : List Stmt}
    (h : Stmt.StandsIn s ss) (hb : b ∈ s.bindings) : b ∈ Stmt.bindingsList ss := by
  induction h with
  | here h => exact Stmt.mem_bindingsList_of_mem h hb
  | thenBlock h _ ih => exact Stmt.mem_bindingsList_of_mem h (by simp [Stmt.bindings, ih])
  | elseBlock h _ ih => exact Stmt.mem_bindingsList_of_mem h (by simp [Stmt.bindings, ih])
  | whileBody h _ ih => exact Stmt.mem_bindingsList_of_mem h (by simp [Stmt.bindings, ih])
  | forBody h _ ih => exact Stmt.mem_bindingsList_of_mem h (by simp [Stmt.bindings, ih])
  | closureBody h _ ih => exact Stmt.mem_bindingsList_of_closure ih _ h

/-- Somewhere in a closure among these expressions, a local is bound or assigned to this value. -/
def Expr.ClosureBinds (parts : List Expr) (x : LocalId) (v : Expr) : Prop :=
  ∃ ps rs cs body i, Expr.closure ps rs cs body i ∈ parts ∧ Stmt.Binds body x v

theorem Expr.ClosureBinds.mono {parts parts' : List Expr} (h : Expr.ClosureBinds parts x v)
    (hsub : parts ⊆ parts') : Expr.ClosureBinds parts' x v := by
  obtain ⟨ps, rs, cs, body, i, hmem, hbinds⟩ := h
  exact ⟨ps, rs, cs, body, i, hsub hmem, hbinds⟩

theorem Stmt.Binds.mono {ss ss' : List Stmt} (h : Stmt.Binds ss x v) (hsub : ss ⊆ ss') :
    Stmt.Binds ss' x v :=
  h.imp (fun h => h.mono hsub) (fun h => h.mono hsub)

/-- What a closure in an expression of a statement binds is bound in the statement. -/
theorem Stmt.Binds.of_part {s : Stmt} {parts : List Expr} (h : Expr.ClosureBinds parts x v)
    (hsub : parts ⊆ s.parts) : Stmt.Binds [s] x v := by
  obtain ⟨ps, rs, cs, body, i, hmem, hbinds⟩ := h
  have hpart : Expr.closure ps rs cs body i ∈ Stmt.partsList [s] := by
    simpa [Stmt.partsList] using hsub hmem
  exact hbinds.imp (.closureBody hpart) (.closureBody hpart)

-- An expression binds nothing itself, so that a binding in it stands in one of its closures.
mutual

theorem Expr.closureBinds_of_mem : ∀ e : Expr, ⟨x, v⟩ ∈ e.bindings →
    Expr.ClosureBinds e.parts x v
  | .const _ _, h | .local _ _, h | .function _ _, h | .builtin _ _, h => by
      simp [Expr.bindings] at h
  | .unary _ e _, h | .len e _, h | .alloc _ e _ _, h =>
      (Expr.closureBinds_of_mem e h).mono (List.subset_cons_self _ _)
  | .binary _ l r _ _ _, h | .index l r _ _, h => by
      rcases List.mem_append.1 h with h | h
      · exact (Expr.closureBinds_of_mem l h).mono (by simp [Expr.parts])
      · exact (Expr.closureBinds_of_mem r h).mono (by simp [Expr.parts])
  | .call f as _, h => by
      rcases List.mem_append.1 h with h | h
      · exact (Expr.closureBinds_of_mem f h).mono (by simp [Expr.parts])
      · exact (Expr.closureBinds_of_mem_list as h).mono (by simp [Expr.parts])
  | .slice es _ _, h =>
      (Expr.closureBinds_of_mem_list es h).mono (List.subset_cons_self _ _)
  | .closure ps rs cs body i, h =>
      ⟨ps, rs, cs, body, i, List.mem_cons_self, Stmt.binds_of_mem_list body h⟩

theorem Expr.closureBinds_of_mem_list : ∀ es : List Expr, ⟨x, v⟩ ∈ Expr.bindingsList es →
    Expr.ClosureBinds (Expr.partsList es) x v
  | [], h => by simp [Expr.bindingsList] at h
  | e :: es, h => by
      rcases List.mem_append.1 h with h | h
      · exact (Expr.closureBinds_of_mem e h).mono (by simp [Expr.partsList])
      · exact (Expr.closureBinds_of_mem_list es h).mono (by simp [Expr.partsList])

theorem Stmt.binds_of_mem : ∀ s : Stmt, ⟨x, v⟩ ∈ s.bindings → Stmt.Binds [s] x v
  | .bind y e, h => by
      rcases List.mem_cons.1 h with h | h
      · cases h
        exact .inl (.here (by simp))
      · exact .of_part (Expr.closureBinds_of_mem e h) (by simp [Stmt.parts])
  | .assign y e, h => by
      rcases List.mem_cons.1 h with h | h
      · cases h
        exact .inr (.here (by simp))
      · exact .of_part (Expr.closureBinds_of_mem e h) (by simp [Stmt.parts])
  | .expr e, h =>
      .of_part (Expr.closureBinds_of_mem e h) (by simp [Stmt.parts])
  | .store s p v _, h => by
      simp only [Stmt.bindings, List.mem_append] at h
      rcases h with (h | h) | h
      · exact .of_part (Expr.closureBinds_of_mem s h) (by simp [Stmt.parts])
      · exact .of_part (Expr.closureBinds_of_mem p h) (by simp [Stmt.parts])
      · exact .of_part (Expr.closureBinds_of_mem v h) (by simp [Stmt.parts])
  | .return es, h =>
      .of_part (Expr.closureBinds_of_mem_list es h) (by simp [Stmt.parts])
  | .if c t e, h => by
      simp only [Stmt.bindings, List.mem_append] at h
      rcases h with (h | h) | h
      · exact .of_part (Expr.closureBinds_of_mem c h) (by simp [Stmt.parts])
      · exact (Stmt.binds_of_mem_list t h).imp (.thenBlock List.mem_cons_self)
          (.thenBlock List.mem_cons_self)
      · exact (Stmt.binds_of_mem_list e h).imp (.elseBlock List.mem_cons_self)
          (.elseBlock List.mem_cons_self)
  | .while c d, h => by
      rcases List.mem_append.1 h with h | h
      · exact .of_part (Expr.closureBinds_of_mem c h) (by simp [Stmt.parts])
      · exact (Stmt.binds_of_mem_list d h).imp (.whileBody List.mem_cons_self)
          (.whileBody List.mem_cons_self)
  | .break, h => by simp [Stmt.bindings] at h
  | .for _ a z d, h => by
      simp only [Stmt.bindings, List.mem_append] at h
      rcases h with (h | h) | h
      · exact .of_part (Expr.closureBinds_of_mem a h) (by simp [Stmt.parts])
      · exact .of_part (Expr.closureBinds_of_mem z h) (by simp [Stmt.parts])
      · exact (Stmt.binds_of_mem_list d h).imp (.forBody List.mem_cons_self)
          (.forBody List.mem_cons_self)

theorem Stmt.binds_of_mem_list : ∀ ss : List Stmt, ⟨x, v⟩ ∈ Stmt.bindingsList ss →
    Stmt.Binds ss x v
  | [], h => by simp [Stmt.bindingsList] at h
  | s :: ss, h => by
      rcases List.mem_append.1 h with h | h
      · exact (Stmt.binds_of_mem s h).mono (by simp)
      · exact (Stmt.binds_of_mem_list ss h).mono (List.subset_cons_self s ss)

end

/-- **The list of bindings is complete**: it holds what is bound or assigned anywhere in a block. -/
theorem Stmt.mem_bindingsList_iff (ss : List Stmt) :
    ⟨x, v⟩ ∈ Stmt.bindingsList ss ↔ Stmt.Binds ss x v := by
  constructor
  · exact Stmt.binds_of_mem_list ss
  · rintro (h | h)
    · exact h.mem_bindings List.mem_cons_self
    · exact h.mem_bindings List.mem_cons_self

end Bindings

end Rivulet.Ir
