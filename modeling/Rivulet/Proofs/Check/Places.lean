import Rivulet.Typed.Tree

set_option autoImplicit false

/-! # The places of a checked tree

Every expression and every statement of a checked program, as one list, and the types that are written
on them. A statement about everything that occurs in a tree is then a statement about the members of a
list. The tree below an expression of the list is in the list (`Program.nodes_closed`). -/

namespace Rivulet.Typed

/-- A place of a checked tree. -/
inductive Node where
  | expr (e : Expr)
  | stmt (s : Stmt)

mutual

/-- An expression and every expression and statement in it. -/
def Expr.nodes : Expr → List Node
  | .int v i => [.expr (.int v i)]
  | .bool v i => [.expr (.bool v i)]
  | .str v i => [.expr (.str v i)]
  | .local x i => [.expr (.local x i)]
  | .function f i => [.expr (.function f i)]
  | .builtin b i => [.expr (.builtin b i)]
  | .unary op e i => .expr (.unary op e i) :: e.nodes
  | .binary op l r i => .expr (.binary op l r i) :: (l.nodes ++ r.nodes)
  | .seq es i => .expr (.seq es i) :: Expr.nodesList es
  | .index e p i => .expr (.index e p i) :: (e.nodes ++ p.nodes)
  | .call f as i => .expr (.call f as i) :: (f.nodes ++ Expr.nodesList as)
  | .closure ps rs b cs i => .expr (.closure ps rs b cs i) :: Stmt.nodesBlock b
  | .error i => [.expr (.error i)]
termination_by structural e => e

/-- Every expression and statement in several expressions. -/
def Expr.nodesList : List Expr → List Node
  | [] => []
  | e :: es => e.nodes ++ Expr.nodesList es
termination_by structural es => es

/-- A statement and every expression and statement in it. -/
def Stmt.nodes : Stmt → List Node
  | .declare c x t e s => .stmt (.declare c x t e s) :: e.nodes
  | .assign x e s => .stmt (.assign x e s) :: e.nodes
  | .if c t e s => .stmt (.if c t e s) :: (c.nodes ++ Stmt.nodesBlock t ++ Stmt.nodesBlock e)
  | .while c b s => .stmt (.while c b s) :: (c.nodes ++ Stmt.nodesBlock b)
  | .return es s => .stmt (.return es s) :: Expr.nodesList es
  | .expr e s => .stmt (.expr e s) :: e.nodes
termination_by structural s => s

/-- Every expression and statement of a block. -/
def Stmt.nodesBlock : List Stmt → List Node
  | [] => []
  | s :: ss => s.nodes ++ Stmt.nodesBlock ss
termination_by structural ss => ss

end

/-- The types that are written at a place. A closure has the type of its value, and one type for each
parameter and result. -/
def Node.types : Node → List Ty
  | .expr (.closure ps rs _ _ i) => [i.ty, .func (ps.map Param.ty) rs]
  | .expr e => [e.ty]
  | .stmt (.declare _ _ t _ _) => [t]
  | .stmt _ => []

/-- Every place of a program. -/
def Program.nodes (p : Program) : List Node := p.functions.flatMap fun f => Stmt.nodesBlock f.body

/-- Every type that is written in a program. -/
def Program.types (p : Program) : List Ty :=
  p.functions.map Function.ty ++ p.nodes.flatMap Node.types

theorem Expr.mem_nodes_self (e : Expr) : .expr e ∈ e.nodes := by
  cases e <;> simp [Expr.nodes]

theorem Expr.ty_mem_types (e : Expr) : e.ty ∈ Node.types (.expr e) := by
  cases e <;> simp [Node.types, Expr.ty, Expr.info]

theorem Program.ty_mem_types {p : Program} {e : Expr} (he : .expr e ∈ p.nodes) : e.ty ∈ p.types :=
  List.mem_append_right _ (List.mem_flatMap.2 ⟨_, he, e.ty_mem_types⟩)

theorem Expr.mem_nodesList {n : Node} {es : List Expr} :
    n ∈ Expr.nodesList es ↔ ∃ e ∈ es, n ∈ e.nodes := by
  induction es with
  | nil => simp [Expr.nodesList]
  | cons e es ih => simp [Expr.nodesList, ih]

theorem Stmt.mem_nodesBlock {n : Node} {ss : List Stmt} :
    n ∈ Stmt.nodesBlock ss ↔ ∃ s ∈ ss, n ∈ s.nodes := by
  induction ss with
  | nil => simp [Stmt.nodesBlock]
  | cons s ss ih => simp [Stmt.nodesBlock, ih]

theorem Expr.callee_mem_nodes (f : Expr) (as : List Expr) (i : Info) :
    .expr f ∈ (Expr.call f as i).nodes := by
  rw [Expr.nodes]
  exact List.mem_cons_of_mem _ (List.mem_append_left _ f.mem_nodes_self)

theorem Expr.arg_mem_nodes {a : Expr} {as : List Expr} (ha : a ∈ as) (f : Expr) (i : Info) :
    .expr a ∈ (Expr.call f as i).nodes := by
  rw [Expr.nodes]
  exact List.mem_cons_of_mem _
    (List.mem_append_right _ (Expr.mem_nodesList.2 ⟨a, ha, a.mem_nodes_self⟩))

/-! What stands in an expression of a tree stands in the tree. -/

/-- With an expression, everything in it is among the places `ns`. -/
def Node.Closed (ns : List Node) : Prop := ∀ e : Expr, .expr e ∈ ns → e.nodes ⊆ ns

namespace Node.Closed

variable {ns ns' : List Node}

theorem nil : Closed [] := by
  intro e he
  cases he

theorem append (h : Closed ns) (h' : Closed ns') : Closed (ns ++ ns') := by
  intro e he
  rcases List.mem_append.1 he with he | he
  · exact List.subset_append_of_subset_left _ (h e he)
  · exact List.subset_append_of_subset_right _ (h' e he)

theorem stmt (s : Stmt) (h : Closed ns) : Closed (.stmt s :: ns) := by
  intro e he
  rcases List.mem_cons.1 he with he | he
  · cases he
  · exact List.subset_cons_of_subset _ (h e he)

theorem expr {e : Expr} (heq : e.nodes = .expr e :: ns) (h : Closed ns) : Closed e.nodes := by
  intro d hd
  rw [heq] at hd ⊢
  rcases List.mem_cons.1 hd with hd | hd
  · rw [Node.expr.inj hd, heq]
    exact List.Subset.refl _
  · exact List.subset_cons_of_subset _ (h d hd)

end Node.Closed

mutual

theorem Expr.nodes_closed : ∀ e : Expr, Node.Closed e.nodes
  | .int _ _ | .bool _ _ | .str _ _ | .local _ _ | .function _ _ | .builtin _ _ | .error _ =>
      .expr rfl .nil
  | .unary _ e _ => .expr rfl e.nodes_closed
  | .binary _ l r _ => .expr rfl (l.nodes_closed.append r.nodes_closed)
  | .seq es _ => .expr rfl (Expr.nodesList_closed es)
  | .index e p _ => .expr rfl (e.nodes_closed.append p.nodes_closed)
  | .call f as _ => .expr rfl (f.nodes_closed.append (Expr.nodesList_closed as))
  | .closure _ _ b _ _ => .expr rfl (Stmt.nodesBlock_closed b)

theorem Expr.nodesList_closed : ∀ es : List Expr, Node.Closed (Expr.nodesList es)
  | [] => .nil
  | e :: es => e.nodes_closed.append (Expr.nodesList_closed es)

theorem Stmt.nodes_closed : ∀ s : Stmt, Node.Closed s.nodes
  | .declare _ _ _ e _ | .assign _ e _ | .expr e _ => .stmt _ e.nodes_closed
  | .if c t e _ =>
      .stmt _ ((c.nodes_closed.append (Stmt.nodesBlock_closed t)).append (Stmt.nodesBlock_closed e))
  | .while c b _ => .stmt _ (c.nodes_closed.append (Stmt.nodesBlock_closed b))
  | .return es _ => .stmt _ (Expr.nodesList_closed es)

theorem Stmt.nodesBlock_closed : ∀ ss : List Stmt, Node.Closed (Stmt.nodesBlock ss)
  | [] => .nil
  | s :: ss => s.nodes_closed.append (Stmt.nodesBlock_closed ss)

end

theorem Program.nodes_closed (p : Program) : Node.Closed p.nodes := by
  intro e he n hn
  obtain ⟨f, hf, he⟩ := List.mem_flatMap.1 he
  exact List.mem_flatMap.2 ⟨f, hf, Stmt.nodesBlock_closed f.body e he hn⟩

end Rivulet.Typed
