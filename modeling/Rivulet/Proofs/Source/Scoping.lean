import Rivulet.Proofs.Source.CaptureWalk
import Rivulet.Proofs.Source.Printer

set_option autoImplicit false

/-! # Lexical scoping

What a name means at a place in a function, and that a closure captures exactly the locals it takes
from outside.

A `Site` is a place in a function: the number of closures around it and the locals in scope there,
innermost first. A name means the innermost local of that name. The parts of a node stand at sites
of their own (`Node.parts`): parameters are in scope in the body, a declaration is in scope in the
statements behind it in its block but not in its own value, and inside of a closure everything is
one closure deeper. `Within` walks from a node to anything inside of it.

A local that is used inside of a closure is declared outside of it if no more closures stand around
its declaration than around that closure. The main theorem compares the lists that resolving writes
into closures with the uses found by that walk. The two sides meet in `Expr.reaches_iff`: a use
reaches outside of the closure exactly if its name is free below the names that the closure binds.
-/

namespace Rivulet

namespace Source

/-! ## Sites -/

/-- A parameter or a declared name, with the number of closures around its declaration. -/
structure Local where
  name : String
  depth : Nat
deriving DecidableEq

/-- Locals of the given names that all have as many closures around them. -/
def Local.each (depth : Nat) (names : List String) : List Local := names.map fun x => ⟨x, depth⟩

@[simp] theorem Local.map_name_each (depth : Nat) (names : List String) :
    (Local.each depth names).map Local.name = names := by
  simp [Local.each, Function.comp_def]

theorem Local.depth_of_mem_each {l : Local} {depth : Nat} {names : List String}
    (h : l ∈ Local.each depth names) : l.depth = depth := by
  obtain ⟨x, -, rfl⟩ := List.mem_map.1 h
  rfl

/-- A place in a function. -/
structure Site where
  /-- The number of closures around the place. -/
  depth : Nat
  /-- The locals in scope, innermost first. -/
  scope : List Local
deriving DecidableEq

namespace Site

/-- The place behind the declaration of some names. -/
def declare (site : Site) (names : List String) : Site :=
  { site with scope := Local.each site.depth names ++ site.scope }

/-- The place inside of a closure with the given parameters. -/
def enter (site : Site) (params : List String) : Site :=
  Site.declare { site with depth := site.depth + 1 } params

/-- The local that a name means: the innermost one that is called so. -/
def meaning? (site : Site) (x : String) : Option Local := site.scope.find? fun l => l.name == x

/-- The names of the locals in scope. -/
def names (site : Site) : List String := site.scope.map Local.name

@[simp] theorem names_declare (site : Site) (xs : List String) :
    (site.declare xs).names = xs ++ site.names := by
  simp [names, declare]

@[simp] theorem names_enter (site : Site) (xs : List String) :
    (site.enter xs).names = xs ++ site.names := names_declare _ xs

end Site

/-! ## Nodes and their parts -/

/-- An expression or a statement. -/
inductive Node where
  | expr (e : Expr)
  | stmt (s : Stmt)

/-- The statements of a block, each at its place: behind the declarations in front of it. -/
def Site.block (site : Site) : List Stmt → List (Site × Node)
  | [] => []
  | s :: ss => (site, .stmt s) :: (site.declare s.declared).block ss

/-- Expressions that all stand at the same place. -/
def Site.exprs (site : Site) (es : List Expr) : List (Site × Node) :=
  es.map fun e => (site, .expr e)

/-- The parts that a node directly consists of, each at its place. -/
def Node.parts (site : Site) : Node → List (Site × Node)
  | .expr (.literal _ _) | .expr (.name _ _) | .expr (.emptySeq _ _) | .expr (.error _) => []
  | .expr (.unary _ e _) => site.exprs [e]
  | .expr (.binary _ l r _) => site.exprs [l, r]
  | .expr (.seq es _) => site.exprs es
  | .expr (.index e i _) => site.exprs [e, i]
  | .expr (.call f as _) => site.exprs (f :: as)
  | .expr (.lambda ps b _ _) => (site.enter (ps.map OpenParam.name)).exprs [b]
  | .expr (.block ps _ b _ _) => (site.enter (ps.map Param.name)).block b
  | .stmt (.declare _ _ _ e _) | .stmt (.assign _ e _) | .stmt (.expr e _) => site.exprs [e]
  | .stmt (.ifThen c b _) | .stmt (.while c b _) => site.exprs [c] ++ site.block b
  | .stmt (.ifElse c b d _) => site.exprs [c] ++ site.block b ++ site.block d
  | .stmt (.return es _) => site.exprs es
  | .stmt (.error _) => []

/-- Somewhere inside of the node at the first place, or as that node itself, the second node stands
at the second place. -/
inductive Within : Site → Node → Site → Node → Prop where
  | here {site : Site} {n : Node} : Within site n site n
  | inside {site site' site'' : Site} {n m k : Node} (h : (site', m) ∈ n.parts site)
      (hk : Within site' m site'' k) : Within site n site'' k

/-- The node stands somewhere in the body of the function. -/
def Function.Holds (f : Function) (site : Site) (n : Node) : Prop :=
  ∃ p ∈ (Site.declare ⟨0, []⟩ (f.params.map Param.name)).block f.body, Within p.1 p.2 site n

/-- The name that a node uses itself: a name as an expression, or the target of an assignment. -/
def Node.use? : Node → Option String
  | .expr (.name x _) => some x
  | .stmt (.assign x _ _) => some x
  | _ => none

/-- What has been written into a closure as its captures. -/
def Expr.captured? : Expr → Option (List String)
  | .lambda _ _ cs _ => some cs
  | .block _ _ _ cs _ => some cs
  | _ => none

/-- Inside of the node, the name `x` is used for a local that has at most `depth` closures around
its declaration. -/
def Reaches (depth : Nat) (x : String) (site : Site) (n : Node) : Prop :=
  ∃ inner u l, Within site n inner u ∧ u.use? = some x ∧ inner.meaning? x = some l ∧ l.depth ≤ depth

/-! ## Uses that reach outside -/

/-- A use in a node is the node itself or a use in one of its parts. -/
theorem reaches_iff_parts {depth : Nat} {x : String} {site : Site} {n : Node} :
    Reaches depth x site n ↔
      (n.use? = some x ∧ ∃ l, site.meaning? x = some l ∧ l.depth ≤ depth) ∨
        ∃ p ∈ n.parts site, Reaches depth x p.1 p.2 := by
  constructor
  · rintro ⟨inner, u, l, hu, huse, hl, hdepth⟩
    cases hu with
    | here => exact .inl ⟨huse, l, hl, hdepth⟩
    | inside h hk => exact .inr ⟨_, h, inner, u, l, hk, huse, hl, hdepth⟩
  · rintro (⟨huse, l, hl, hdepth⟩ | ⟨p, hp, inner, u, l, hu, huse, hl, hdepth⟩)
    · exact ⟨site, n, l, .here, huse, hl, hdepth⟩
    · exact ⟨inner, u, l, .inside hp hu, huse, hl, hdepth⟩

theorem reaches_iff_of_use?_none {depth : Nat} {x : String} {site : Site} {n : Node}
    (hn : n.use? = none) :
    Reaches depth x site n ↔ ∃ p ∈ n.parts site, Reaches depth x p.1 p.2 := by
  rw [reaches_iff_parts, hn]
  simp

/-- The locals in scope are split into those inside of a closure and those outside of it. -/
structure Site.Splits (site : Site) (depth : Nat) (own outer : List Local) : Prop where
  scope_eq : site.scope = own ++ outer
  own_deep : ∀ l ∈ own, depth < l.depth
  outer_shallow : ∀ l ∈ outer, l.depth ≤ depth
  inside : depth < site.depth

namespace Site.Splits

variable {site : Site} {depth : Nat} {own outer : List Local}

theorem declare (h : site.Splits depth own outer) (xs : List String) :
    (site.declare xs).Splits depth (Local.each site.depth xs ++ own) outer where
  scope_eq := by simp [Site.declare, h.scope_eq]
  own_deep := by
    intro l hl
    rcases List.mem_append.1 hl with hl | hl
    · rw [Local.depth_of_mem_each hl]
      exact h.inside
    · exact h.own_deep l hl
  outer_shallow := h.outer_shallow
  inside := h.inside

theorem enter (h : site.Splits depth own outer) (xs : List String) :
    (site.enter xs).Splits depth (Local.each (site.depth + 1) xs ++ own) outer := by
  have hdeeper : Site.Splits ⟨site.depth + 1, site.scope⟩ depth own outer :=
    ⟨h.scope_eq, h.own_deep, h.outer_shallow, Nat.lt_succ_of_lt h.inside⟩
  exact hdeeper.declare xs

/-- A name means a local from outside if there is one that is not hidden by a local from inside. -/
theorem meaning?_iff (h : site.Splits depth own outer) (x : String) :
    (∃ l, site.meaning? x = some l ∧ l.depth ≤ depth) ↔
      x ∉ own.map Local.name ∧ x ∈ outer.map Local.name := by
  rw [Site.meaning?, h.scope_eq, List.find?_append]
  cases hown : own.find? fun l => l.name == x with
  | some l =>
      -- the name is found inside, and what it means there is too deep
      have hl : l ∈ own := List.mem_of_find?_eq_some hown
      have hname : l.name = x := by simpa using List.find?_some hown
      have hx : x ∈ own.map Local.name := List.mem_map.2 ⟨l, hl, hname⟩
      have := h.own_deep l hl
      constructor
      · rintro ⟨l', hl', hdepth⟩
        cases hl'
        omega
      · exact fun hnot => absurd hx hnot.1
  | none =>
      -- nothing inside hides the name, so it is looked up outside
      have hx : x ∉ own.map Local.name := by
        simpa [List.find?_eq_none] using hown
      constructor
      · rintro ⟨l, hl, -⟩
        have hfound : outer.find? (fun l => l.name == x) = some l := hl
        exact ⟨hx, List.mem_map.2 ⟨l, List.mem_of_find?_eq_some hfound,
          by simpa using List.find?_some hfound⟩⟩
      · rintro ⟨-, hmem⟩
        obtain ⟨l, hl, rfl⟩ := List.mem_map.1 hmem
        obtain ⟨l', hl'⟩ : ∃ l', outer.find? (fun m => m.name == l.name) = some l' := by
          rw [← Option.isSome_iff_exists, List.find?_isSome]
          exact ⟨l, hl, by simp⟩
        exact ⟨l', hl', h.outer_shallow l' (List.mem_of_find?_eq_some hl')⟩

end Site.Splits

section Reaches

variable {depth : Nat} {x : String} {outer : List Local}

theorem reaches_exprs {site : Site} {es : List Expr} :
    (∃ p ∈ site.exprs es, Reaches depth x p.1 p.2) ↔
      ∃ e ∈ es, Reaches depth x site (.expr e) := by
  simp [Site.exprs]

mutual

/-- A use in an expression reaches outside exactly if its name is free below the names from inside
and stands for a local outside. -/
theorem Expr.reaches_iff {site : Site} {own : List Local} (h : site.Splits depth own outer) :
    ∀ e : Expr, Reaches depth x site (.expr e) ↔
      x ∈ e.free (own.map Local.name) ∧ x ∈ outer.map Local.name
  | .literal _ _ | .emptySeq _ _ | .error _ => by
      rw [reaches_iff_of_use?_none rfl]
      simp [Node.parts, Expr.free]
  | .name y _ => by
      rw [reaches_iff_parts, h.meaning?_iff, Expr.free, mem_freeName_iff]
      simp only [Node.use?, Node.parts, Option.some.injEq, List.not_mem_nil, false_and,
        exists_false, or_false]
      tauto
  | .unary _ e _ => by
      rw [reaches_iff_of_use?_none rfl, Node.parts, reaches_exprs, Expr.free]
      simpa using Expr.reaches_iff h e
  | .binary _ l r _ | .index l r _ => by
      rw [reaches_iff_of_use?_none rfl, Node.parts, reaches_exprs, Expr.free]
      simp only [List.mem_cons, List.not_mem_nil, or_false, exists_eq_or_imp, exists_eq_left,
        List.mem_append, Expr.reaches_iff h l, Expr.reaches_iff h r]
      exact or_and_right.symm
  | .seq es _ => by
      rw [reaches_iff_of_use?_none rfl, Node.parts, reaches_exprs, Expr.free]
      exact Expr.reaches_list_iff h es
  | .call f as _ => by
      rw [reaches_iff_of_use?_none rfl, Node.parts, reaches_exprs, Expr.free]
      simp only [List.mem_cons, exists_eq_or_imp, List.mem_append, Expr.reaches_iff h f,
        Expr.reaches_list_iff h as]
      exact or_and_right.symm
  | .lambda ps b _ _ => by
      rw [reaches_iff_of_use?_none rfl, Node.parts, reaches_exprs, Expr.free]
      simpa using Expr.reaches_iff (h.enter (ps.map OpenParam.name)) b
  | .block ps _ b _ _ => by
      rw [reaches_iff_of_use?_none rfl, Node.parts, Expr.free]
      simpa using Stmt.reaches_block_iff (h.enter (ps.map Param.name)) b
termination_by structural e => e

theorem Expr.reaches_list_iff {site : Site} {own : List Local} (h : site.Splits depth own outer) :
    ∀ es : List Expr, (∃ e ∈ es, Reaches depth x site (.expr e)) ↔
      x ∈ Expr.freeList (own.map Local.name) es ∧ x ∈ outer.map Local.name
  | [] => by simp [Expr.freeList]
  | e :: es => by
      simp only [Expr.freeList, List.mem_cons, exists_eq_or_imp, List.mem_append,
        Expr.reaches_iff h e, Expr.reaches_list_iff h es]
      exact or_and_right.symm
termination_by structural es => es

theorem Stmt.reaches_iff {site : Site} {own : List Local} (h : site.Splits depth own outer) :
    ∀ s : Stmt, Reaches depth x site (.stmt s) ↔
      x ∈ s.free (own.map Local.name) ∧ x ∈ outer.map Local.name
  | .declare _ _ _ e _ | .expr e _ => by
      rw [reaches_iff_of_use?_none rfl, Node.parts, reaches_exprs, Stmt.free]
      simpa using Expr.reaches_iff h e
  | .assign y e _ => by
      rw [reaches_iff_parts, h.meaning?_iff, Node.parts, reaches_exprs, Stmt.free]
      simp only [Node.use?, Option.some.injEq, List.mem_cons, List.not_mem_nil, or_false,
        exists_eq_left, List.mem_append, mem_freeName_iff, Expr.reaches_iff h e]
      tauto
  | .ifThen c b _ | .while c b _ => by
      rw [reaches_iff_of_use?_none rfl, Node.parts, Stmt.free]
      simp only [List.mem_append, or_and_right, exists_or, reaches_exprs, List.mem_cons,
        List.not_mem_nil, or_false, exists_eq_left, Expr.reaches_iff h c,
        Stmt.reaches_block_iff h b]
  | .ifElse c b d _ => by
      rw [reaches_iff_of_use?_none rfl, Node.parts, Stmt.free]
      simp only [List.mem_append, or_and_right, exists_or, reaches_exprs, List.mem_cons,
        List.not_mem_nil, or_false, exists_eq_left, Expr.reaches_iff h c,
        Stmt.reaches_block_iff h b, Stmt.reaches_block_iff h d]
  | .return es _ => by
      rw [reaches_iff_of_use?_none rfl, Node.parts, reaches_exprs, Stmt.free]
      exact Expr.reaches_list_iff h es
  | .error _ => by
      rw [reaches_iff_of_use?_none rfl]
      simp [Node.parts, Stmt.free]
termination_by structural s => s

theorem Stmt.reaches_block_iff {site : Site} {own : List Local} (h : site.Splits depth own outer) :
    ∀ ss : List Stmt, (∃ p ∈ site.block ss, Reaches depth x p.1 p.2) ↔
      x ∈ Stmt.freeBlock (own.map Local.name) ss ∧ x ∈ outer.map Local.name
  | [] => by simp [Site.block, Stmt.freeBlock]
  | s :: ss => by
      have hrest := Stmt.reaches_block_iff (h.declare s.declared) ss
      rw [List.map_append, Local.map_name_each] at hrest
      simp only [Site.block, Stmt.freeBlock, List.mem_cons, exists_eq_or_imp, List.mem_append,
        Stmt.reaches_iff h s, hrest]
      exact or_and_right.symm
termination_by structural ss => ss

end

end Reaches

/-! ## Resolved trees -/

@[simp] theorem Stmt.declared_resolve (visible : List String) (s : Stmt) :
    (s.resolve visible).declared = s.declared := by
  cases s <;> rfl

mutual

/-- Resolving changes no names. -/
theorem Expr.free_resolve (visible : List String) :
    ∀ (bound : List String) (e : Expr), (e.resolve visible).free bound = e.free bound
  | _, .literal _ _ | _, .name _ _ | _, .emptySeq _ _ | _, .error _ => rfl
  | bound, .unary _ e _ => Expr.free_resolve visible bound e
  | bound, .binary _ l r _ => by
      simp only [Expr.resolve, Expr.free, Expr.free_resolve visible bound l,
        Expr.free_resolve visible bound r]
  | bound, .seq es _ => Expr.freeList_resolveList visible bound es
  | bound, .index e i _ => by
      simp only [Expr.resolve, Expr.free, Expr.free_resolve visible bound e,
        Expr.free_resolve visible bound i]
  | bound, .call f as _ => by
      simp only [Expr.resolve, Expr.free, Expr.free_resolve visible bound f,
        Expr.freeList_resolveList visible bound as]
  | bound, .lambda ps b _ _ => Expr.free_resolve _ _ b
  | bound, .block ps _ b _ _ => Stmt.freeBlock_resolveBlock _ _ b

theorem Expr.freeList_resolveList (visible : List String) :
    ∀ (bound : List String) (es : List Expr),
      Expr.freeList bound (Expr.resolveList visible es) = Expr.freeList bound es
  | _, [] => rfl
  | bound, e :: es => by
      simp only [Expr.resolveList, Expr.freeList, Expr.free_resolve visible bound e,
        Expr.freeList_resolveList visible bound es]

theorem Stmt.free_resolve (visible : List String) :
    ∀ (bound : List String) (s : Stmt), (s.resolve visible).free bound = s.free bound
  | bound, .declare _ _ _ e _ | bound, .expr e _ => Expr.free_resolve visible bound e
  | bound, .assign _ e _ => by
      simp only [Stmt.resolve, Stmt.free, Expr.free_resolve visible bound e]
  | bound, .ifThen c b _ | bound, .while c b _ => by
      simp only [Stmt.resolve, Stmt.free, Expr.free_resolve visible bound c,
        Stmt.freeBlock_resolveBlock visible bound b]
  | bound, .ifElse c b d _ => by
      simp only [Stmt.resolve, Stmt.free, Expr.free_resolve visible bound c,
        Stmt.freeBlock_resolveBlock visible bound b, Stmt.freeBlock_resolveBlock visible bound d]
  | bound, .return es _ => Expr.freeList_resolveList visible bound es
  | _, .error _ => rfl

theorem Stmt.freeBlock_resolveBlock (visible : List String) :
    ∀ (bound : List String) (ss : List Stmt),
      Stmt.freeBlock bound (Stmt.resolveBlock visible ss) = Stmt.freeBlock bound ss
  | _, [] => rfl
  | bound, s :: ss => by
      simp only [Stmt.resolveBlock, Stmt.freeBlock, Stmt.declared_resolve,
        Stmt.free_resolve visible bound s, Stmt.freeBlock_resolveBlock _ _ ss]

end

/-- Write the captures into every closure of a node. -/
def Node.resolve (visible : List String) : Node → Node
  | .expr e => .expr (e.resolve visible)
  | .stmt s => .stmt (s.resolve visible)

theorem exprs_resolveList (site : Site) (es : List Expr) :
    ∀ p ∈ site.exprs (Expr.resolveList site.names es), ∃ n, p.2 = Node.resolve p.1.names n := by
  induction es with
  | nil => nofun
  | cons e es ih => exact List.forall_mem_cons.2 ⟨⟨.expr e, rfl⟩, ih⟩

theorem block_resolveBlock (site : Site) (ss : List Stmt) :
    ∀ p ∈ site.block (Stmt.resolveBlock site.names ss), ∃ n, p.2 = Node.resolve p.1.names n := by
  induction ss generalizing site with
  | nil => nofun
  | cons s ss ih =>
      intro p hp
      rw [Stmt.resolveBlock, Site.block, Stmt.declared_resolve, ← Site.names_declare] at hp
      rcases List.mem_cons.1 hp with rfl | hp
      · exact ⟨.stmt s, rfl⟩
      · exact ih _ p hp

/-- The parts of a resolved node are resolved, each for the locals at its place. -/
theorem Node.parts_resolve (site : Site) (n : Node) :
    ∀ p ∈ (n.resolve site.names).parts site, ∃ m, p.2 = Node.resolve p.1.names m := by
  rcases n with (_ | _ | ⟨_, e, _⟩ | ⟨_, l, r, _⟩ | ⟨es, _⟩ | _ | ⟨e, i, _⟩ | ⟨f, as, _⟩ |
      ⟨ps, b, _, _⟩ | ⟨ps, _, b, _, _⟩ | _) |
    (⟨_, _, _, e, _⟩ | ⟨_, e, _⟩ | ⟨c, b, _⟩ | ⟨c, b, d, _⟩ | ⟨c, b, _⟩ | ⟨es, _⟩ | ⟨e, _⟩ | _)
  all_goals simp only [Node.resolve, Expr.resolve, Stmt.resolve, Node.parts]
  · nofun
  · nofun
  · exact exprs_resolveList site [e]
  · exact exprs_resolveList site [l, r]
  · exact exprs_resolveList site es
  · nofun
  · exact exprs_resolveList site [e, i]
  · exact exprs_resolveList site (f :: as)
  · have h := exprs_resolveList (site.enter (ps.map OpenParam.name)) [b]
    rwa [Site.names_enter] at h
  · have h := block_resolveBlock (site.enter (ps.map Param.name)) b
    rwa [Site.names_enter] at h
  · nofun
  · exact exprs_resolveList site [e]
  · exact exprs_resolveList site [e]
  · exact List.forall_mem_append.2 ⟨exprs_resolveList site [c], block_resolveBlock site b⟩
  · exact List.forall_mem_append.2 ⟨List.forall_mem_append.2
      ⟨exprs_resolveList site [c], block_resolveBlock site b⟩, block_resolveBlock site d⟩
  · exact List.forall_mem_append.2 ⟨exprs_resolveList site [c], block_resolveBlock site b⟩
  · exact exprs_resolveList site es
  · exact exprs_resolveList site [e]
  · nofun

/-- Whatever stands in a resolved node is resolved for the locals at its place. -/
theorem Within.resolved {site site' : Site} {n m : Node} (h : Within site n site' m)
    (hn : ∃ n', n = Node.resolve site.names n') : ∃ m', m = Node.resolve site'.names m' := by
  induction h with
  | here => exact hn
  | @inside site₁ site₂ site₃ n₁ n₂ n₃ hpart _ ih =>
      obtain ⟨n', rfl⟩ := hn
      exact ih (Node.parts_resolve site₁ n' _ hpart)

/-! ## Depths -/

/-- No local in scope has more closures around it than the place itself. -/
def Site.Tidy (site : Site) : Prop := ∀ l ∈ site.scope, l.depth ≤ site.depth

theorem Site.Tidy.declare {site : Site} (h : site.Tidy) (xs : List String) :
    (site.declare xs).Tidy := by
  intro l hl
  rcases List.mem_append.1 hl with hl | hl
  · exact (Local.depth_of_mem_each hl).le
  · exact h l hl

theorem Site.Tidy.enter {site : Site} (h : site.Tidy) (xs : List String) :
    (site.enter xs).Tidy := by
  have hdeeper : Site.Tidy ⟨site.depth + 1, site.scope⟩ := fun l hl => Nat.le_succ_of_le (h l hl)
  exact hdeeper.declare xs

theorem Site.Tidy.exprs {site : Site} (h : site.Tidy) (es : List Expr) :
    ∀ p ∈ site.exprs es, p.1.Tidy := by
  intro p hp
  obtain ⟨e, -, rfl⟩ := List.mem_map.1 hp
  exact h

theorem Site.Tidy.block {site : Site} (h : site.Tidy) (ss : List Stmt) :
    ∀ p ∈ site.block ss, p.1.Tidy := by
  induction ss generalizing site with
  | nil => nofun
  | cons s ss ih => exact List.forall_mem_cons.2 ⟨h, ih (h.declare s.declared)⟩

theorem Site.Tidy.parts {site : Site} (h : site.Tidy) (n : Node) :
    ∀ p ∈ n.parts site, p.1.Tidy := by
  cases n with
  | expr e =>
      cases e with
      | lambda ps b => exact (h.enter _).exprs [b]
      | block ps _ b => exact (h.enter _).block b
      | unary | binary | seq | index | call => exact h.exprs _
      | literal | name | emptySeq | error => nofun
  | stmt s =>
      cases s with
      | ifThen c b | «while» c b => exact List.forall_mem_append.2 ⟨h.exprs [c], h.block b⟩
      | ifElse c b d =>
          exact List.forall_mem_append.2
            ⟨List.forall_mem_append.2 ⟨h.exprs [c], h.block b⟩, h.block d⟩
      | declare | assign | «return» | expr => exact h.exprs _
      | error => nofun

theorem Within.tidy {site site' : Site} {n m : Node} (h : Within site n site' m)
    (hsite : site.Tidy) : site'.Tidy := by
  induction h with
  | here => exact hsite
  | inside hpart _ ih => exact ih (hsite.parts _ _ hpart)

/-! ## Captures -/

/-- A resolved closure has captured the names that are used in it for locals from outside. -/
theorem Expr.captured_resolve {site : Site} (hsite : site.Tidy) {e : Expr} {cs : List String}
    (hcs : (e.resolve site.names).captured? = some cs) :
    cs.Pairwise (· < ·) ∧
      ∀ x, x ∈ cs ↔ Reaches site.depth x site (.expr (e.resolve site.names)) := by
  -- behind its parameters, the locals are split into these and what is in scope around the closure
  have hsplits : ∀ xs : List String, (site.enter xs).Splits site.depth
      (Local.each (site.depth + 1) xs) site.scope := fun xs =>
    { scope_eq := rfl
      own_deep := fun l hl => by
        rw [Local.depth_of_mem_each hl]
        exact Nat.lt_succ_self _
      outer_shallow := hsite
      inside := Nat.lt_succ_self _ }
  cases e with
  | lambda ps b _ s =>
      cases hcs
      refine ⟨Ascending.pairwise_ofList _, fun x => ?_⟩
      rw [mem_captures_iff, Expr.resolve, reaches_iff_of_use?_none rfl, Node.parts, reaches_exprs]
      simp only [List.mem_cons, List.not_mem_nil, or_false, exists_eq_left,
        Expr.reaches_iff (hsplits _), Local.map_name_each, Expr.free_resolve]
      rfl
  | block ps rs b _ s =>
      cases hcs
      refine ⟨Ascending.pairwise_ofList _, fun x => ?_⟩
      rw [mem_captures_iff, Expr.resolve, reaches_iff_of_use?_none rfl, Node.parts,
        Stmt.reaches_block_iff (hsplits _), Local.map_name_each, Stmt.freeBlock_resolveBlock]
      rfl
  | _ => cases hcs

/-- **Closures capture the free locals.** Resolving changes nothing in a program but the lists of
captures. Wherever a closure stands in the resolved program, its list ascends strictly and holds
exactly the names of which some use inside of the closure means a local that is declared outside of
it. -/
theorem Program.captured_iff_used (p : Program) :
    p.resolve.bare = p.bare ∧
      ∀ f ∈ p.resolve.functions, ∀ site e cs, f.Holds site (.expr e) → e.captured? = some cs →
        cs.Pairwise (· < ·) ∧
          ∀ x, x ∈ cs ↔ ∃ inner u l, Within site (.expr e) inner u ∧ u.use? = some x ∧
            inner.meaning? x = some l ∧ l.depth ≤ site.depth := by
  refine ⟨p.bare_resolve, fun f hf site e cs hholds hcs => ?_⟩
  obtain ⟨g, -, rfl⟩ := List.mem_map.1 hf
  rw [Function.resolve_eq_resolveAmong] at hholds
  obtain ⟨q, hq, hwithin⟩ := hholds
  have hnone : Site.Tidy ⟨0, []⟩ := nofun
  have htop : (Site.declare ⟨0, []⟩ (g.params.map Param.name)).Tidy := hnone.declare _
  have hresolved : ∃ n, q.2 = Node.resolve q.1.names n := by
    refine block_resolveBlock (Site.declare ⟨0, []⟩ (g.params.map Param.name)) g.body q ?_
    rw [Site.names_declare, Site.names, List.map_nil, List.append_nil]
    exact hq
  obtain ⟨n, hn⟩ := hwithin.resolved hresolved
  have htidy : site.Tidy := hwithin.tidy (htop.block _ q hq)
  cases n with
  | stmt s => cases hn
  | expr e' =>
      cases hn
      exact Expr.captured_resolve htidy hcs

/-- A function of `a` and `b` that declares `h := x -> (b -> a + b * x)`. The parameter of the inner
closure hides that of the function. -/
def Program.hiding : Program :=
  ⟨[{ name := "f"
      params := [⟨"a", .named .int, nowhere⟩, ⟨"b", .named .int, nowhere⟩]
      results := []
      body :=
        [.declare false "h" none
          (.lambda [⟨"x", none, nowhere⟩]
            (.lambda [⟨"b", none, nowhere⟩]
              (.binary .add (.name "a" nowhere)
                (.binary .mul (.name "b" nowhere) (.name "x" nowhere) nowhere) nowhere)
              [] nowhere)
            [] nowhere) nowhere]
      span := nowhere }]⟩

/-- The inner closure captures `a` and `x`, and `b` is its own. -/
theorem Program.captured_iff_used_hiding :
    ∃ f ∈ Program.hiding.resolve.functions, ∃ site e,
      f.Holds site (.expr e) ∧ e.captured? = some ["a", "x"] ∧
        ∀ x, x ∈ ["a", "x"] ↔ ∃ inner u l, Within site (.expr e) inner u ∧ u.use? = some x ∧
          inner.meaning? x = some l ∧ l.depth ≤ site.depth := by
  have hholds : ∃ e, (Program.hiding.resolve.functions.head (by decide)).Holds
      ⟨1, [⟨"x", 1⟩, ⟨"a", 0⟩, ⟨"b", 0⟩]⟩ (.expr e) ∧ e.captured? = some ["a", "x"] :=
    ⟨_, ⟨_, .head _, .inside (.head _) (.inside (.head _) .here)⟩, by decide⟩
  obtain ⟨e, he, hcs⟩ := hholds
  exact ⟨_, List.head_mem _, _, e, he, hcs,
    ((Program.captured_iff_used Program.hiding).2 _ (List.head_mem _) _ e _ he hcs).2⟩

end Source

end Rivulet
