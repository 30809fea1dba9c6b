import Rivulet.Proofs.Ascending
import Rivulet.Source.Tree
import Mathlib.Data.String.Basic

set_option autoImplicit false

/-! # Free names and captures

What a closure captures, read off its body. Two definitions make it precise:

* `Expr.free bound e` lists the names that `e` uses and that are not bound inside of `e`, given that
  the names `bound` are; scoping is lexical, and a declaration is visible only after its own value;
* `Expr.resolve visible e` writes into every closure of `e` which of the names `visible` around it
  are free in it, in ascending order and each once.

A name is free under more bound names exactly if it is free and not one of them
(`Expr.mem_free_iff`), so the bound names can be put aside and added again at will.

Two notions about whole trees are used where programs are checked. A tree is *whole* if no expression
in it stands for text that could not be parsed. Statements of that kind do not count: they are passed
over, as if they were not there. The names that a tree *uses in closures* are those that some closure
of it takes from outside of the tree. -/

namespace Rivulet

namespace Source

/-! ## Free names -/

/-- The names that a statement declares for the statements after it. -/
def Stmt.declared : Stmt → List String
  | .declare _ x _ _ _ => [x]
  | _ => []

/-- The name as a list, unless it is bound. -/
def freeName (bound : List String) (x : String) : List String := if x ∈ bound then [] else [x]

mutual

/-- The names that an expression uses and does not bind. -/
def Expr.free (bound : List String) : Expr → List String
  | .literal _ _ => []
  | .name x _ => freeName bound x
  | .unary _ e _ => e.free bound
  | .binary _ l r _ => l.free bound ++ r.free bound
  | .seq es _ => Expr.freeList bound es
  | .emptySeq _ _ => []
  | .index e i _ => e.free bound ++ i.free bound
  | .call f as _ => f.free bound ++ Expr.freeList bound as
  | .lambda ps b _ _ => b.free (ps.map OpenParam.name ++ bound)
  | .block ps _ b _ _ => Stmt.freeBlock (ps.map Param.name ++ bound) b
  | .error _ => []
termination_by structural e => e

/-- The names that several expressions use and do not bind. -/
def Expr.freeList (bound : List String) : List Expr → List String
  | [] => []
  | e :: es => e.free bound ++ Expr.freeList bound es
termination_by structural es => es

/-- The names that a statement uses and does not bind. Assigning to a name uses it. -/
def Stmt.free (bound : List String) : Stmt → List String
  | .declare _ _ _ e _ => e.free bound
  | .assign x e _ => freeName bound x ++ e.free bound
  | .ifThen c b _ => c.free bound ++ Stmt.freeBlock bound b
  | .ifElse c b d _ => c.free bound ++ Stmt.freeBlock bound b ++ Stmt.freeBlock bound d
  | .while c b _ => c.free bound ++ Stmt.freeBlock bound b
  | .return es _ => Expr.freeList bound es
  | .expr e _ => e.free bound
  | .error _ => []
termination_by structural s => s

/-- The names that a block uses and does not bind. -/
def Stmt.freeBlock (bound : List String) : List Stmt → List String
  | [] => []
  | s :: ss => s.free bound ++ Stmt.freeBlock (s.declared ++ bound) ss
termination_by structural ss => ss

end

theorem mem_freeName_iff {x y : String} {bound : List String} :
    y ∈ freeName bound x ↔ y = x ∧ y ∉ bound := by
  unfold freeName
  split
  · rename_i hx
    simp only [List.not_mem_nil, false_iff, not_and, not_not]
    rintro rfl
    exact hx
  · rename_i hx
    rw [List.mem_singleton]
    constructor
    · rintro rfl
      exact ⟨rfl, hx⟩
    · exact fun h => h.1

mutual

/-- A name is free under bound names if it is free and not one of them. -/
theorem Expr.mem_free_iff {x : String} (bound : List String) :
    ∀ e : Expr, x ∈ e.free bound ↔ x ∈ e.free [] ∧ x ∉ bound
  | .literal _ _ | .emptySeq _ _ | .error _ => by simp [Expr.free]
  | .name y _ => by simp [Expr.free, mem_freeName_iff]
  | .unary _ e _ => Expr.mem_free_iff bound e
  | .binary _ l r _ => by
      simp only [Expr.free, List.mem_append, Expr.mem_free_iff bound l, Expr.mem_free_iff bound r]
      tauto
  | .seq es _ => Expr.mem_freeList_iff bound es
  | .index e i _ => by
      simp only [Expr.free, List.mem_append, Expr.mem_free_iff bound e, Expr.mem_free_iff bound i]
      tauto
  | .call f as _ => by
      simp only [Expr.free, List.mem_append, Expr.mem_free_iff bound f,
        Expr.mem_freeList_iff bound as]
      tauto
  | .lambda ps b _ _ => by
      simp only [Expr.free, Expr.mem_free_iff (ps.map OpenParam.name ++ bound) b,
        Expr.mem_free_iff (ps.map OpenParam.name ++ []) b, List.mem_append, List.not_mem_nil]
      tauto
  | .block ps _ b _ _ => by
      simp only [Expr.free, Stmt.mem_freeBlock_iff (ps.map Param.name ++ bound) b,
        Stmt.mem_freeBlock_iff (ps.map Param.name ++ []) b, List.mem_append, List.not_mem_nil]
      tauto

theorem Expr.mem_freeList_iff {x : String} (bound : List String) :
    ∀ es : List Expr, x ∈ Expr.freeList bound es ↔ x ∈ Expr.freeList [] es ∧ x ∉ bound
  | [] => by simp [Expr.freeList]
  | e :: es => by
      simp only [Expr.freeList, List.mem_append, Expr.mem_free_iff bound e,
        Expr.mem_freeList_iff bound es]
      tauto

theorem Stmt.mem_free_iff {x : String} (bound : List String) :
    ∀ s : Stmt, x ∈ s.free bound ↔ x ∈ s.free [] ∧ x ∉ bound
  | .declare _ _ _ e _ | .expr e _ => Expr.mem_free_iff bound e
  | .assign y e _ => by
      simp only [Stmt.free, List.mem_append, mem_freeName_iff, Expr.mem_free_iff bound e,
        List.not_mem_nil]
      tauto
  | .ifThen c b _ | .while c b _ => by
      simp only [Stmt.free, List.mem_append, Expr.mem_free_iff bound c,
        Stmt.mem_freeBlock_iff bound b]
      tauto
  | .ifElse c b d _ => by
      simp only [Stmt.free, List.mem_append, Expr.mem_free_iff bound c,
        Stmt.mem_freeBlock_iff bound b, Stmt.mem_freeBlock_iff bound d]
      tauto
  | .return es _ => Expr.mem_freeList_iff bound es
  | .error _ => by simp [Stmt.free]

theorem Stmt.mem_freeBlock_iff {x : String} (bound : List String) :
    ∀ ss : List Stmt, x ∈ Stmt.freeBlock bound ss ↔ x ∈ Stmt.freeBlock [] ss ∧ x ∉ bound
  | [] => by simp [Stmt.freeBlock]
  | s :: ss => by
      simp only [Stmt.freeBlock, List.mem_append, Stmt.mem_free_iff bound s,
        Stmt.mem_freeBlock_iff (s.declared ++ bound) ss,
        Stmt.mem_freeBlock_iff (s.declared ++ []) ss, List.not_mem_nil]
      tauto

end

/-- What a closure uses of the names around it: binding more names takes these away. -/
theorem Expr.mem_free_append_iff {x : String} (xs bound : List String) (e : Expr) :
    x ∈ e.free (xs ++ bound) ↔ x ∈ e.free xs ∧ x ∉ bound := by
  rw [Expr.mem_free_iff (xs ++ bound), Expr.mem_free_iff xs, List.mem_append]
  tauto

theorem Stmt.mem_freeBlock_append_iff {x : String} (xs bound : List String) (ss : List Stmt) :
    x ∈ Stmt.freeBlock (xs ++ bound) ss ↔ x ∈ Stmt.freeBlock xs ss ∧ x ∉ bound := by
  rw [Stmt.mem_freeBlock_iff (xs ++ bound), Stmt.mem_freeBlock_iff xs, List.mem_append]
  tauto

/-! ## Captures -/

/-- Those of the free names that are visible, in ascending order. -/
def captures (visible free : List String) : List String :=
  Ascending.ofList (free.filter fun x => x ∈ visible)

/-- A closure captures what is free in it and visible around it. -/
theorem mem_captures_iff {x : String} {visible free : List String} :
    x ∈ captures visible free ↔ x ∈ free ∧ x ∈ visible := by
  simp [captures, Ascending.mem_ofList_iff]

mutual

/-- Write the captures into every closure of an expression in whose surroundings `visible` are the
locals. -/
def Expr.resolve (visible : List String) : Expr → Expr
  | .literal v s => .literal v s
  | .name x s => .name x s
  | .unary op e s => .unary op (e.resolve visible) s
  | .binary op l r s => .binary op (l.resolve visible) (r.resolve visible) s
  | .seq es s => .seq (Expr.resolveList visible es) s
  | .emptySeq t s => .emptySeq t s
  | .index e i s => .index (e.resolve visible) (i.resolve visible) s
  | .call f as s => .call (f.resolve visible) (Expr.resolveList visible as) s
  | .lambda ps b _ s =>
      let names := ps.map OpenParam.name
      .lambda ps (b.resolve (names ++ visible)) (captures visible (b.free names)) s
  | .block ps rs b _ s =>
      let names := ps.map Param.name
      .block ps rs (Stmt.resolveBlock (names ++ visible) b)
        (captures visible (Stmt.freeBlock names b)) s
  | .error s => .error s
termination_by structural e => e

/-- Write the captures into every closure of several expressions. -/
def Expr.resolveList (visible : List String) : List Expr → List Expr
  | [] => []
  | e :: es => e.resolve visible :: Expr.resolveList visible es
termination_by structural es => es

/-- Write the captures into every closure of a statement. -/
def Stmt.resolve (visible : List String) : Stmt → Stmt
  | .declare c x t e s => .declare c x t (e.resolve visible) s
  | .assign x e s => .assign x (e.resolve visible) s
  | .ifThen c b s => .ifThen (c.resolve visible) (Stmt.resolveBlock visible b) s
  | .ifElse c b d s =>
      .ifElse (c.resolve visible) (Stmt.resolveBlock visible b) (Stmt.resolveBlock visible d) s
  | .while c b s => .while (c.resolve visible) (Stmt.resolveBlock visible b) s
  | .return es s => .return (Expr.resolveList visible es) s
  | .expr e s => .expr (e.resolve visible) s
  | .error s => .error s
termination_by structural s => s

/-- Write the captures into every closure of a block. -/
def Stmt.resolveBlock (visible : List String) : List Stmt → List Stmt
  | [] => []
  | s :: ss => s.resolve visible :: Stmt.resolveBlock (s.declared ++ visible) ss
termination_by structural ss => ss

end

/-! ## Whole trees -/

mutual

/-- No expression in an expression stands for text that could not be parsed. -/
def Expr.Whole : Expr → Prop
  | .literal _ _ | .name _ _ | .emptySeq _ _ => True
  | .unary _ e _ => e.Whole
  | .binary _ l r _ => l.Whole ∧ r.Whole
  | .seq es _ => Expr.WholeList es
  | .index e i _ => e.Whole ∧ i.Whole
  | .call f as _ => f.Whole ∧ Expr.WholeList as
  | .lambda _ b _ _ => b.Whole
  | .block _ _ b _ _ => Stmt.WholeBlock b
  | .error _ => False
termination_by structural e => e

/-- No expression in several expressions stands for text that could not be parsed. -/
def Expr.WholeList : List Expr → Prop
  | [] => True
  | e :: es => e.Whole ∧ Expr.WholeList es
termination_by structural es => es

/-- No expression in a statement stands for text that could not be parsed. -/
def Stmt.Whole : Stmt → Prop
  | .declare _ _ _ e _ | .assign _ e _ | .expr e _ => e.Whole
  | .ifThen c b _ | .while c b _ => c.Whole ∧ Stmt.WholeBlock b
  | .ifElse c b d _ => c.Whole ∧ Stmt.WholeBlock b ∧ Stmt.WholeBlock d
  | .return es _ => Expr.WholeList es
  | .error _ => True
termination_by structural s => s

/-- No expression in a block stands for text that could not be parsed. -/
def Stmt.WholeBlock : List Stmt → Prop
  | [] => True
  | s :: ss => s.Whole ∧ Stmt.WholeBlock ss
termination_by structural ss => ss

end

/-- No expression in a program stands for text that could not be parsed. -/
def Program.Whole (p : Program) : Prop := ∀ f ∈ p.functions, Stmt.WholeBlock f.body

mutual

/-- Resolving captures neither adds nor removes text that could not be parsed. -/
theorem Expr.whole_resolve (visible : List String) :
    ∀ e : Expr, (e.resolve visible).Whole ↔ e.Whole
  | .literal _ _ | .name _ _ | .emptySeq _ _ | .error _ => Iff.rfl
  | .unary _ e _ => Expr.whole_resolve visible e
  | .binary _ l r _ => and_congr (Expr.whole_resolve visible l) (Expr.whole_resolve visible r)
  | .seq es _ => Expr.wholeList_resolve visible es
  | .index e i _ => and_congr (Expr.whole_resolve visible e) (Expr.whole_resolve visible i)
  | .call f as _ => and_congr (Expr.whole_resolve visible f) (Expr.wholeList_resolve visible as)
  | .lambda _ b _ _ => Expr.whole_resolve _ b
  | .block _ _ b _ _ => Stmt.wholeBlock_resolve _ b

theorem Expr.wholeList_resolve (visible : List String) :
    ∀ es : List Expr, Expr.WholeList (Expr.resolveList visible es) ↔ Expr.WholeList es
  | [] => Iff.rfl
  | e :: es => and_congr (Expr.whole_resolve visible e) (Expr.wholeList_resolve visible es)

theorem Stmt.whole_resolve (visible : List String) :
    ∀ s : Stmt, (s.resolve visible).Whole ↔ s.Whole
  | .declare _ _ _ e _ | .assign _ e _ | .expr e _ => Expr.whole_resolve visible e
  | .ifThen c b _ | .while c b _ =>
      and_congr (Expr.whole_resolve visible c) (Stmt.wholeBlock_resolve visible b)
  | .ifElse c b d _ =>
      and_congr (Expr.whole_resolve visible c)
        (and_congr (Stmt.wholeBlock_resolve visible b) (Stmt.wholeBlock_resolve visible d))
  | .return es _ => Expr.wholeList_resolve visible es
  | .error _ => Iff.rfl

theorem Stmt.wholeBlock_resolve (visible : List String) :
    ∀ ss : List Stmt, Stmt.WholeBlock (Stmt.resolveBlock visible ss) ↔ Stmt.WholeBlock ss
  | [] => Iff.rfl
  | s :: ss => and_congr (Stmt.whole_resolve visible s) (Stmt.wholeBlock_resolve _ ss)

end

/-! ## Captures among given names -/

/-- The function with the captures that its closures have if `visible` are the locals around its
body. -/
def Function.resolveAmong (visible : List String) (f : Function) : Function :=
  { f with body := Stmt.resolveBlock visible f.body }

/-- The program with the captures that its closures have if `visible f` are the locals around the body
of `f`. -/
def Program.resolveAmong (visible : Function → List String) (p : Program) : Program :=
  ⟨p.functions.map fun f => f.resolveAmong (visible f)⟩

/-! ## Names used in closures -/

mutual

/-- The names that the closures of an expression use, and that neither they bind nor anything
around them does, given that the names `bound` are bound. -/
def Expr.closureFree (bound : List String) : Expr → List String
  | .literal _ _ | .name _ _ | .emptySeq _ _ | .error _ => []
  | .unary _ e _ => e.closureFree bound
  | .binary _ l r _ => l.closureFree bound ++ r.closureFree bound
  | .seq es _ => Expr.closureFreeList bound es
  | .index e i _ => e.closureFree bound ++ i.closureFree bound
  | .call f as _ => f.closureFree bound ++ Expr.closureFreeList bound as
  | .lambda ps b _ _ => b.free (ps.map OpenParam.name ++ bound)
  | .block ps _ b _ _ => Stmt.freeBlock (ps.map Param.name ++ bound) b
termination_by structural e => e

/-- The names that the closures of several expressions use from outside. -/
def Expr.closureFreeList (bound : List String) : List Expr → List String
  | [] => []
  | e :: es => e.closureFree bound ++ Expr.closureFreeList bound es
termination_by structural es => es

/-- The names that the closures of a statement use from outside. -/
def Stmt.closureFree (bound : List String) : Stmt → List String
  | .declare _ _ _ e _ | .assign _ e _ | .expr e _ => e.closureFree bound
  | .ifThen c b _ | .while c b _ => c.closureFree bound ++ Stmt.closureFreeBlock bound b
  | .ifElse c b d _ =>
      c.closureFree bound ++ Stmt.closureFreeBlock bound b ++ Stmt.closureFreeBlock bound d
  | .return es _ => Expr.closureFreeList bound es
  | .error _ => []
termination_by structural s => s

/-- The names that the closures of a block use from outside. -/
def Stmt.closureFreeBlock (bound : List String) : List Stmt → List String
  | [] => []
  | s :: ss => s.closureFree bound ++ Stmt.closureFreeBlock (s.declared ++ bound) ss
termination_by structural ss => ss

end

theorem append_subset_append {as bs cs ds : List String} (h : as ⊆ cs) (h' : bs ⊆ ds) :
    as ++ bs ⊆ cs ++ ds :=
  List.append_subset.2
    ⟨List.subset_append_of_subset_left ds h, List.subset_append_of_subset_right cs h'⟩

mutual

/-- What is used in closures is used. -/
theorem Expr.closureFree_subset (bound : List String) :
    ∀ e : Expr, e.closureFree bound ⊆ e.free bound
  | .literal _ _ | .name _ _ | .emptySeq _ _ | .error _ => by simp [Expr.closureFree]
  | .unary _ e _ => Expr.closureFree_subset bound e
  | .binary _ l r _ =>
      append_subset_append (Expr.closureFree_subset bound l) (Expr.closureFree_subset bound r)
  | .seq es _ => Expr.closureFreeList_subset bound es
  | .index e i _ =>
      append_subset_append (Expr.closureFree_subset bound e) (Expr.closureFree_subset bound i)
  | .call f as _ =>
      append_subset_append (Expr.closureFree_subset bound f)
        (Expr.closureFreeList_subset bound as)
  | .lambda _ _ _ _ | .block _ _ _ _ _ => List.Subset.refl _

theorem Expr.closureFreeList_subset (bound : List String) :
    ∀ es : List Expr, Expr.closureFreeList bound es ⊆ Expr.freeList bound es
  | [] => List.Subset.refl _
  | e :: es =>
      append_subset_append (Expr.closureFree_subset bound e)
        (Expr.closureFreeList_subset bound es)

theorem Stmt.closureFree_subset (bound : List String) :
    ∀ s : Stmt, s.closureFree bound ⊆ s.free bound
  | .declare _ _ _ e _ | .expr e _ => Expr.closureFree_subset bound e
  | .assign _ e _ => List.subset_append_of_subset_right _ (Expr.closureFree_subset bound e)
  | .ifThen c b _ | .while c b _ =>
      append_subset_append (Expr.closureFree_subset bound c)
        (Stmt.closureFreeBlock_subset bound b)
  | .ifElse c b d _ =>
      append_subset_append
        (append_subset_append (Expr.closureFree_subset bound c)
          (Stmt.closureFreeBlock_subset bound b))
        (Stmt.closureFreeBlock_subset bound d)
  | .return es _ => Expr.closureFreeList_subset bound es
  | .error _ => List.Subset.refl _

theorem Stmt.closureFreeBlock_subset (bound : List String) :
    ∀ ss : List Stmt, Stmt.closureFreeBlock bound ss ⊆ Stmt.freeBlock bound ss
  | [] => List.Subset.refl _
  | s :: ss =>
      append_subset_append (Stmt.closureFree_subset bound s)
        (Stmt.closureFreeBlock_subset (s.declared ++ bound) ss)

end

end Source

end Rivulet
