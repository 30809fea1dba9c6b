import Rivulet.Source.Climb
import Mathlib.Data.List.TakeWhile
import Mathlib.Tactic

set_option autoImplicit false

/-! # The grouping of a chain of operators

Which tree a chain of operands and operators stands for. Read from left to right, a tree shows its
first operand (`Chain.first`) and the operators and operands behind it (`Chain.rest`); many trees
show the same. A tree is *grouped* if every operator in it may stand where it stands
(`Chain.Grouped`): under another operator only if it binds tighter, or as tight and on the side to
which that rank groups. Exactly one tree is grouped and shows a given chain, and `climb` builds it.

The tree is described by growing it from the left. A new operator walks down the right edge as long
as it may stand below the operator it meets, and takes what it stops at as its left operand
(`Chain.extend`). Growing keeps a tree grouped, and every grouped tree regrows from what it shows: an
operator of the tree leaves everything to its left alone, and everything to its right grows below it.

Climbing grows the same tree (`climb_eq`). What its two loops take is a front of the chain: `climbFrom`
the operators from some rank on, `climbRight` the operators that may stand below the one whose
operand it makes, and each leaves the rest (`climbFrom_grows`). -/

namespace Rivulet

/-! ## The table of operators -/

/-- The tightest rank groups to the right, every other rank to the left. So operators of one rank
group the same way. -/
theorem BinaryOp.assoc_eq_right_iff (o : BinaryOp) : o.assoc = .right ↔ o.precedence = 10 := by
  cases o <;> decide

theorem BinaryOp.assoc_eq_left_iff (o : BinaryOp) : o.assoc = .left ↔ o.precedence ≠ 10 := by
  cases o <;> decide

theorem BinaryOp.precedence_le (o : BinaryOp) : o.precedence ≤ 10 := by
  cases o <;> decide

namespace Source

/-- A binary tree of operators over operands. -/
inductive Chain where
  | operand (e : Expr)
  | node (op : BinaryOp) (lhs rhs : Chain)

namespace Chain

/-- Whether `new`, standing to the right of `old`, takes the operand between the two: it has a
higher rank, or the same rank and groups to the right. -/
def claims (new old : BinaryOp) : Bool :=
  old.precedence < new.precedence || (old.precedence == new.precedence && new.assoc == .right)

/-- Extend a chain on the right by an operator and an operand. -/
def extend (op : BinaryOp) (e : Expr) : Chain → Chain
  | .operand a => .node op (.operand a) (.operand e)
  | .node old lhs rhs =>
      if claims op old then .node old lhs (extend op e rhs)
      else .node op (.node old lhs rhs) (.operand e)

/-- The chain of a first operand and the operators and operands after it. -/
def ofList (first : Expr) (rest : List (BinaryOp × Expr)) : Chain :=
  rest.foldl (fun c p => c.extend p.1 p.2) (.operand first)

/-- The expression of a chain. A node spans from the start of its left operand to the end of its
right one. -/
def toExpr : Chain → Expr
  | .operand e => e
  | .node op lhs rhs =>
      let l := lhs.toExpr
      let r := rhs.toExpr
      .binary op l r (l.span.through r.span)

/-! ## What a tree shows -/

/-- The leftmost operand. -/
def first : Chain → Expr
  | .operand e => e
  | .node _ lhs _ => lhs.first

/-- The rightmost operand. -/
def last : Chain → Expr
  | .operand e => e
  | .node _ _ rhs => rhs.last

/-- The operators from left to right, each with the operand behind it. -/
def rest : Chain → List (BinaryOp × Expr)
  | .operand _ => []
  | .node op lhs rhs => lhs.rest ++ (op, rhs.first) :: rhs.rest

/-- The operator at the root. An operand has none, also if it is an operator expression itself. -/
def root? : Chain → Option BinaryOp
  | .operand _ => none
  | .node op _ _ => some op

/-- The expression of a tree, in which every node spans from its leftmost operand to its rightmost
one. -/
def spanned : Chain → Expr
  | .operand e => e
  | .node op lhs rhs =>
      .binary op lhs.spanned rhs.spanned ⟨lhs.first.span.start, rhs.last.span.stop⟩

/-! ## Grouped trees -/

/-- Whether `p` may be the root of the left operand of `o`. -/
def MayStandLeft (p o : BinaryOp) : Prop :=
  o.precedence < p.precedence ∨ (p.precedence = o.precedence ∧ o.assoc = .left)

/-- Whether `p` may be the root of the right operand of `o`. -/
def MayStandRight (p o : BinaryOp) : Prop :=
  o.precedence < p.precedence ∨ (p.precedence = o.precedence ∧ o.assoc = .right)

/-- Every operator of the tree may stand where it stands. -/
def Grouped : Chain → Prop
  | .operand _ => True
  | .node o lhs rhs =>
      (∀ p ∈ lhs.root?, MayStandLeft p o) ∧ (∀ p ∈ rhs.root?, MayStandRight p o) ∧
        lhs.Grouped ∧ rhs.Grouped

/-- An operator takes the operand from the one in front of it exactly if it may stand below that
one on the right. -/
theorem claims_iff (new old : BinaryOp) : claims new old = true ↔ MayStandRight new old := by
  simp only [claims, MayStandRight, Bool.or_eq_true, Bool.and_eq_true, decide_eq_true_eq,
    beq_iff_eq, BinaryOp.assoc_eq_right_iff]
  omega

/-- Otherwise, the one in front may stand below it on the left. -/
theorem claims_eq_false_iff (new old : BinaryOp) :
    claims new old = false ↔ MayStandLeft old new := by
  rw [← Bool.not_eq_true, claims_iff]
  simp only [MayStandRight, MayStandLeft, BinaryOp.assoc_eq_right_iff, BinaryOp.assoc_eq_left_iff]
  omega

/-- What stands below an operator on the right, or anywhere below that, may stand there itself. -/
theorem MayStandRight.below {p q o : BinaryOp} (hp : MayStandRight p o)
    (hq : MayStandLeft q p ∨ MayStandRight q p) : MayStandRight q o := by
  simp only [MayStandRight, MayStandLeft, BinaryOp.assoc_eq_right_iff,
    BinaryOp.assoc_eq_left_iff] at hp hq ⊢
  omega

/-! ## Growing a tree -/

@[simp] theorem first_extend (op : BinaryOp) (e : Expr) (c : Chain) :
    (c.extend op e).first = c.first := by
  induction c with
  | operand a => rfl
  | node o lhs rhs _ _ =>
      rw [extend]
      split <;> rfl

@[simp] theorem rest_extend (op : BinaryOp) (e : Expr) (c : Chain) :
    (c.extend op e).rest = c.rest ++ [(op, e)] := by
  induction c with
  | operand a => rfl
  | node o lhs rhs _ ih =>
      rw [extend]
      split
      · simp [rest, ih]
      · simp [rest, first]

theorem root?_extend (op : BinaryOp) (e : Expr) (c : Chain) :
    (c.extend op e).root? = some op ∨ (c.extend op e).root? = c.root? := by
  cases c with
  | operand a => exact .inl rfl
  | node o lhs rhs =>
      rw [extend]
      split
      · exact .inr rfl
      · exact .inl rfl

/-- Growing keeps a tree grouped. -/
theorem Grouped.extend {op : BinaryOp} {e : Expr} {c : Chain} (hc : c.Grouped) :
    (c.extend op e).Grouped := by
  induction c with
  | operand a => exact ⟨nofun, nofun, trivial, trivial⟩
  | node o lhs rhs _ ih =>
      obtain ⟨hl, hr, hlhs, hrhs⟩ := hc
      rw [Chain.extend]
      by_cases hclaims : claims op o = true
      · rw [if_pos hclaims]
        refine ⟨hl, fun p hp => ?_, hlhs, ih hrhs⟩
        -- the root of the grown right operand is the new operator or an old root
        rcases root?_extend op e rhs with hroot | hroot
        · rw [hroot] at hp
          cases hp
          exact (claims_iff op o).1 hclaims
        · rw [hroot] at hp
          exact hr p hp
      · rw [if_neg hclaims]
        refine ⟨fun p hp => ?_, nofun, ⟨hl, hr, hlhs, hrhs⟩, trivial⟩
        cases hp
        exact (claims_eq_false_iff op o).1 (Bool.not_eq_true _ ▸ hclaims)

/-- The tree of a chain, grown from a tree for its front. -/
abbrev grow (c : Chain) (xs : List (BinaryOp × Expr)) : Chain :=
  xs.foldl (fun c x => c.extend x.1 x.2) c

theorem grow_grouped {c : Chain} (hc : c.Grouped) (xs : List (BinaryOp × Expr)) :
    (c.grow xs).Grouped ∧ (c.grow xs).first = c.first ∧ (c.grow xs).rest = c.rest ++ xs := by
  induction xs generalizing c with
  | nil => simp [grow, hc]
  | cons x xs ih =>
      have hx : (c.extend x.1 x.2).Grouped := hc.extend
      obtain ⟨hgrouped, hfirst, hrest⟩ := ih hx
      exact ⟨hgrouped, by simpa using hfirst, by simpa using hrest⟩

/-! ## Regrowing a grouped tree -/

/-- A new operator leaves a tree alone whose root may stand below it on the left. -/
theorem extend_of_mayStandLeft {op : BinaryOp} {c : Chain} (h : ∀ p ∈ c.root?, MayStandLeft p op)
    (e : Expr) : c.extend op e = .node op c (.operand e) := by
  cases c with
  | operand a => rfl
  | node o lhs rhs =>
      have hclaims : claims op o = false := (claims_eq_false_iff op o).2 (h o rfl)
      rw [extend, if_neg (by simp [hclaims])]

/-- Operators that may all stand below the root on the right grow there. -/
theorem grow_node {o : BinaryOp} {xs : List (BinaryOp × Expr)}
    (h : ∀ x ∈ xs, MayStandRight x.1 o) (lhs rhs : Chain) :
    (Chain.node o lhs rhs).grow xs = .node o lhs (rhs.grow xs) := by
  induction xs generalizing rhs with
  | nil => rfl
  | cons x xs ih =>
      have hclaims : claims x.1 o = true := (claims_iff x.1 o).2 (h x (by simp))
      have hx : (Chain.node o lhs rhs).extend x.1 x.2 = .node o lhs (rhs.extend x.1 x.2) := by
        rw [extend, if_pos hclaims]
      rw [grow, List.foldl_cons, hx]
      exact ih (fun y hy => h y (List.mem_cons_of_mem _ hy)) _

/-- An operator that leaves a tree alone takes it as its left operand, and grows its right operand from
the operators behind it that may all stand there. -/
theorem grow_cons_append {op : BinaryOp} {e : Expr} {c : Chain} {xs ys : List (BinaryOp × Expr)}
    (hc : ∀ p ∈ c.root?, MayStandLeft p op) (hxs : ∀ x ∈ xs, MayStandRight x.1 op) :
    c.grow ((op, e) :: (xs ++ ys)) = (Chain.node op c ((Chain.operand e).grow xs)).grow ys := by
  rw [grow, List.foldl_cons, extend_of_mayStandLeft hc, List.foldl_append]
  exact congrArg (·.grow ys) (grow_node hxs c (.operand e))

/-- If the root of a grouped tree may stand below an operator on the right, so may all of its
operators. -/
theorem Grouped.mayStandRight {o : BinaryOp} {c : Chain} (hc : c.Grouped)
    (hroot : ∀ p ∈ c.root?, MayStandRight p o) : ∀ x ∈ c.rest, MayStandRight x.1 o := by
  induction c with
  | operand a => nofun
  | node p lhs rhs ihl ihr =>
      obtain ⟨hl, hr, hlhs, hrhs⟩ := hc
      have hp : MayStandRight p o := hroot p rfl
      intro x hx
      rcases List.mem_append.1 hx with hx | hx
      · exact ihl hlhs (fun q hq => hp.below (.inl (hl q hq))) x hx
      · rcases List.mem_cons.1 hx with rfl | hx
        · exact hp
        · exact ihr hrhs (fun q hq => hp.below (.inr (hr q hq))) x hx

/-- A grouped tree is the one that grows from what it shows. -/
theorem Grouped.eq_ofList {c : Chain} (hc : c.Grouped) : c = ofList c.first c.rest := by
  induction c with
  | operand a => rfl
  | node o lhs rhs ihl ihr =>
      obtain ⟨hl, hr, hlhs, hrhs⟩ := hc
      have hright : ∀ x ∈ rhs.rest, MayStandRight x.1 o := hrhs.mayStandRight hr
      calc Chain.node o lhs rhs
          = .node o lhs ((Chain.operand rhs.first).grow rhs.rest) := by
            rw [grow, ← ofList, ← ihr hrhs]
        _ = (Chain.node o lhs (.operand rhs.first)).grow rhs.rest := (grow_node hright _ _).symm
        _ = (lhs.extend o rhs.first).grow rhs.rest := by rw [extend_of_mayStandLeft hl]
        _ = ((ofList lhs.first lhs.rest).extend o rhs.first).grow rhs.rest := by
            rw [← ihl hlhs]
        _ = ofList (Chain.node o lhs rhs).first (Chain.node o lhs rhs).rest := by
            simp [ofList, first, rest]

/-! ## Spans -/

theorem start_toExpr (c : Chain) : c.toExpr.span.start = c.first.span.start := by
  induction c with
  | operand e => rfl
  | node op lhs rhs ih _ => exact ih

theorem stop_toExpr (c : Chain) : c.toExpr.span.stop = c.last.span.stop := by
  induction c with
  | operand e => rfl
  | node op lhs rhs _ ih => exact ih

/-- Nodes span from their leftmost operand to their rightmost one. -/
theorem toExpr_eq_spanned (c : Chain) : c.toExpr = c.spanned := by
  induction c with
  | operand e => rfl
  | node op lhs rhs ihl ihr =>
      rw [toExpr, spanned, ← ihl, ← ihr, Span.through, start_toExpr, stop_toExpr]

/-- What holds of the operands of a tree and is kept by binary operators holds of its expression. -/
theorem toExpr_induction {P : Expr → Prop}
    (hbinary : ∀ op l r s, P l → P r → P (.binary op l r s)) :
    ∀ c : Chain, P c.first → (∀ p ∈ c.rest, P p.2) → P c.toExpr
  | .operand _, hfirst, _ => hfirst
  | .node op lhs rhs, hfirst, hrest => by
      simp only [rest, List.forall_mem_append, List.forall_mem_cons] at hrest
      obtain ⟨hlhs, hop, hrhs⟩ := hrest
      exact hbinary _ _ _ _ (toExpr_induction hbinary lhs hfirst hlhs)
        (toExpr_induction hbinary rhs hop hrhs)

end Chain

/-! ## Climbing -/

open Chain (claims claims_iff claims_eq_false_iff MayStandLeft MayStandRight)

/-- Whether the operator of a link has the rank `least` or a higher one. -/
def Links.fromRank (least : Nat) (link : BinaryOp × Expr) : Bool :=
  least ≤ link.1.precedence

/-- Whether the operator of a link takes the right operand of `op`. -/
def Links.claiming (op : BinaryOp) (link : BinaryOp × Expr) : Bool := claims link.1 op

/-- What takes the right operand of an operator has at least its rank. -/
theorem Links.fromRank_of_claiming {op : BinaryOp} {least : Nat} (hop : least ≤ op.precedence)
    {link : BinaryOp × Expr} (h : claiming op link = true) : fromRank least link = true := by
  have hclaims : MayStandRight link.1 op := (claims_iff _ _).1 h
  simp only [MayStandRight] at hclaims
  simp only [fromRank, decide_eq_true_eq]
  omega

theorem claims_eq_false_of_rankBehind {op next : BinaryOp} (h : rankBehind op next = none) :
    claims next op = false := by
  unfold rankBehind at h
  rw [claims_eq_false_iff, MayStandLeft, BinaryOp.assoc_eq_left_iff]
  simp only [BinaryOp.assoc_eq_right_iff] at h
  split at h
  · cases h
  · split at h
    · cases h
    · omega

/-- If some operator takes the right operand of `op`, then those that do are all the operators from
one rank on. -/
theorem Links.claiming_eq_fromRank {op next : BinaryOp} {least : Nat}
    (h : rankBehind op next = some least) : claiming op = fromRank least := by
  funext link
  rw [Bool.eq_iff_iff, claiming, claims_iff, MayStandRight, fromRank, decide_eq_true_eq,
    BinaryOp.assoc_eq_right_iff]
  unfold rankBehind at h
  simp only [BinaryOp.assoc_eq_right_iff] at h
  have hnext : next.precedence ≤ 10 := next.precedence_le
  split at h
  · cases h
    omega
  · split at h
    · cases h
      omega
    · cases h

theorem Links.head?_dropWhile {p : BinaryOp × Expr → Bool} {links : Links} :
    ∀ link ∈ (links.dropWhile p).head?, p link = false := by
  intro link hlink
  have h := List.head?_dropWhile_not p links
  rw [hlink] at h
  exact h

/-- A loop extends the tree `c` by the links at the front that it takes, and leaves the others. -/
structure Climbed.Grows {links : Links} {taken : Prop} (r : Climbed links taken) (c : Chain)
    (takes : BinaryOp × Expr → Bool) : Prop where
  tree : r.tree = (c.grow (links.takeWhile takes)).toExpr
  rest : r.rest = links.dropWhile takes

/-- A right operand is finished if the next operator does not take it. -/
theorem climbRight_of_head {op : BinaryOp} {links : Links}
    (h : ∀ link ∈ links.head?, Links.claiming op link = false) (rhs : Expr) :
    (climbRight op rhs links).tree = rhs ∧ (climbRight op rhs links).rest = links := by
  cases links with
  | nil => simp [climbRight]
  | cons link rest =>
      rw [climbRight]
      split
      · exact ⟨rfl, rfl⟩
      · rename_i least hleast
        have hclaims : Links.claiming op link = true := by
          rw [Links.claiming_eq_fromRank hleast, Links.fromRank, decide_eq_true_eq]
          exact le_precedence_of_rankBehind hleast
        rw [h link rfl] at hclaims
        cases hclaims

/-- After one round of climbing a right operand is finished: the operators that the round leaves do
not take it. -/
theorem climbRight_grows {op : BinaryOp} {e : Expr} {links : Links}
    (hclimb : ∀ least, (climbFrom e links least).Grows (.operand e) (Links.fromRank least)) :
    (climbRight op e links).Grows (.operand e) (Links.claiming op) := by
  cases links with
  | nil => constructor <;> simp [climbRight, Chain.toExpr]
  | cons link rest =>
      rw [climbRight]
      split
      · rename_i hnext
        have hclaims : ¬ Links.claiming op link = true := by
          rw [Links.claiming, claims_eq_false_of_rankBehind hnext]
          exact Bool.false_ne_true
        constructor
        · rw [List.takeWhile_cons_of_neg hclaims]
          rfl
        · rw [List.dropWhile_cons_of_neg hclaims]
      · rename_i least hnext
        obtain ⟨htree, hrest⟩ := hclimb least
        rw [← Links.claiming_eq_fromRank hnext] at htree hrest
        have hleft : ∀ link' ∈ (climbFrom e (link :: rest) least).rest.head?,
            Links.claiming op link' = false := by
          rw [hrest]
          exact Links.head?_dropWhile
        obtain ⟨htree', hrest'⟩ := climbRight_of_head hleft (climbFrom e (link :: rest) least).tree
        exact ⟨htree'.trans htree, hrest'.trans hrest⟩

theorem Links.fromRank_of_mem_takeWhile {op : BinaryOp} {least : Nat} (hop : least ≤ op.precedence)
    {links : Links} : ∀ link ∈ links.takeWhile (claiming op), fromRank least link = true :=
  fun _ hlink => fromRank_of_claiming hop (List.mem_takeWhile_imp hlink)

/-- What climbing takes begins with what the right operand of the first operator takes. -/
theorem Links.takeWhile_fromRank {op : BinaryOp} {least : Nat} (hop : least ≤ op.precedence)
    (links : Links) : links.takeWhile (fromRank least) = links.takeWhile (claiming op) ++
      (links.dropWhile (claiming op)).takeWhile (fromRank least) := by
  rw [← List.takeWhile_append_of_pos (fromRank_of_mem_takeWhile hop),
    List.takeWhile_append_dropWhile]

theorem Links.dropWhile_fromRank {op : BinaryOp} {least : Nat} (hop : least ≤ op.precedence)
    (links : Links) : links.dropWhile (fromRank least) =
      (links.dropWhile (claiming op)).dropWhile (fromRank least) := by
  calc links.dropWhile (fromRank least)
      = (links.takeWhile (claiming op) ++ links.dropWhile (claiming op)).dropWhile
          (fromRank least) := by rw [List.takeWhile_append_dropWhile]
    _ = (links.dropWhile (claiming op)).dropWhile (fromRank least) :=
        List.dropWhile_append_of_pos (fromRank_of_mem_takeWhile hop)

/-- Every operator leaves a single operand alone. -/
theorem mayStandLeft_of_operand (e : Expr) (links : Links) :
    ∀ p ∈ (Chain.operand e).root?, ∀ link ∈ links.head?, MayStandLeft p link.1 :=
  fun _ hp => absurd hp (Option.not_mem_none _)

/-- One round of climbing: the operator takes the tree that is there as its left operand, the right
operand grows from what claims it, and climbing goes on with what the right operand leaves. -/
theorem climbFrom_cons_grows {op : BinaryOp} {e : Expr} {rest : Links} {least : Nat} {c : Chain}
    (hop : least ≤ op.precedence) (hc : ∀ p ∈ c.root?, MayStandLeft p op)
    (hright : (climbRight op e rest).Grows (.operand e) (Links.claiming op))
    (hwhole : ∀ c' : Chain,
      (∀ p ∈ c'.root?, ∀ link ∈ (climbRight op e rest).rest.head?, MayStandLeft p link.1) →
      (climbFrom c'.toExpr (climbRight op e rest).rest least).Grows c' (Links.fromRank least)) :
    (climbFrom c.toExpr ((op, e) :: rest) least).Grows c (Links.fromRank least) := by
  have htakes : Links.fromRank least (op, e) = true := decide_eq_true hop
  -- the operator with both of its operands
  let made : Chain := .node op c ((Chain.operand e).grow (rest.takeWhile (Links.claiming op)))
  have hmade : made.toExpr = .binary op c.toExpr (climbRight op e rest).tree
      (c.toExpr.span.through (climbRight op e rest).tree.span) := by
    rw [hright.tree]
    rfl
  have hleft : ∀ p ∈ made.root?, ∀ link ∈ (climbRight op e rest).rest.head?,
      MayStandLeft p link.1 := by
    rintro p ⟨rfl⟩
    rw [hright.rest]
    exact fun link hlink => (claims_eq_false_iff _ _).1 (Links.head?_dropWhile link hlink)
  have hclaiming : ∀ link ∈ rest.takeWhile (Links.claiming op), MayStandRight link.1 op := by
    intro link hlink
    have hclaims : Links.claiming op link = true := List.mem_takeWhile_imp hlink
    exact (claims_iff _ _).1 hclaims
  have hgrows := hwhole made hleft
  rw [hmade] at hgrows
  rw [climbFrom, dif_pos hop]
  constructor
  · rw [List.takeWhile_cons_of_pos htakes, Links.takeWhile_fromRank hop,
      Chain.grow_cons_append hc hclaiming, ← hright.rest]
    exact hgrows.tree
  · rw [List.dropWhile_cons_of_pos htakes, Links.dropWhile_fromRank hop, ← hright.rest]
    exact hgrows.rest

/-- Climbing from a rank grows a tree by the operators of that rank and above. The first of them must
leave alone the tree that is there already: that tree becomes a left operand, and nothing changes in
it any more. -/
theorem climbFrom_grows (links : Links) (least : Nat) (c : Chain)
    (hc : ∀ p ∈ c.root?, ∀ link ∈ links.head?, MayStandLeft p link.1) :
    (climbFrom c.toExpr links least).Grows c (Links.fromRank least) := by
  -- a right operand takes several links away, so the induction is on their number
  induction hlength : links.length using Nat.strong_induction_on generalizing links least c with
  | _ n ih =>
      subst hlength
      cases links with
      | nil => constructor <;> simp [climbFrom]
      | cons link rest =>
          obtain ⟨op, e⟩ := link
          by_cases hop : least ≤ op.precedence
          · have hshorter : rest.length < (⟨op, e⟩ :: rest : Links).length := Nat.lt_succ_self _
            have hright : (climbRight op e rest).Grows (.operand e) (Links.claiming op) :=
              climbRight_grows fun least' =>
                ih _ hshorter rest least' (.operand e) (mayStandLeft_of_operand e rest) rfl
            have hleft := Nat.lt_of_le_of_lt (climbRight op e rest).length_le hshorter
            exact climbFrom_cons_grows hop (fun p hp => hc p hp _ rfl) hright
              fun c' hc' => ih _ hleft _ least c' hc' rfl
          · have htakes : ¬ Links.fromRank least (op, e) = true := by
              simpa [Links.fromRank] using hop
            rw [climbFrom, dif_neg hop]
            constructor
            · rw [List.takeWhile_cons_of_neg htakes]
              rfl
            · rw [List.dropWhile_cons_of_neg htakes]

/-- Climbing builds the tree that grows from the chain. -/
theorem climb_eq (first : Expr) (rest : List (BinaryOp × Expr)) :
    climb first rest = (Chain.ofList first rest).toExpr := by
  have hall : ∀ link ∈ rest, Links.fromRank 0 link = true :=
    fun _ _ => decide_eq_true (Nat.zero_le _)
  have hgrows : (climbFrom first rest 0).Grows (.operand first) (Links.fromRank 0) :=
    climbFrom_grows rest 0 (.operand first) (mayStandLeft_of_operand first rest)
  rw [climb, hgrows.tree, List.takeWhile_eq_self_iff.2 hall]
  rfl

theorem climb_nil (e : Expr) : climb e [] = e := by
  rw [climb_eq]
  rfl

theorem climb_single (a b : Expr) (op : BinaryOp) :
    climb a [(op, b)] = .binary op a b (a.span.through b.span) := by
  rw [climb_eq]
  rfl

theorem climb_induction {P : Expr → Prop} (hbinary : ∀ op l r s, P l → P r → P (.binary op l r s))
    {first : Expr} {rest : List (BinaryOp × Expr)} (hfirst : P first) (hrest : ∀ p ∈ rest, P p.2) :
    P (climb first rest) := by
  have hstart : (Chain.operand first).Grouped := trivial
  obtain ⟨-, hfirst', hrest'⟩ := Chain.grow_grouped hstart rest
  rw [climb_eq]
  refine Chain.toExpr_induction hbinary (Chain.ofList first rest) ?_ ?_
  · rwa [Chain.ofList, hfirst']
  · rwa [Chain.ofList, hrest']

/-- **Chains are grouped by rank and side.** `climb` gives the expression of the one grouped tree
that shows the operands and operators of the chain in their order, and every node it makes spans
from its leftmost operand to its rightmost one. -/
theorem climb_eq_unique_grouped (first : Expr) (rest : List (BinaryOp × Expr)) :
    ∃ c : Chain, (c.first = first ∧ c.rest = rest ∧ c.Grouped) ∧ climb first rest = c.spanned ∧
      ∀ c' : Chain, c'.first = first ∧ c'.rest = rest ∧ c'.Grouped → c' = c := by
  have hstart : (Chain.operand first).Grouped := trivial
  obtain ⟨hgrouped, hfirst, hrest⟩ := Chain.grow_grouped hstart rest
  refine ⟨Chain.ofList first rest, ⟨hfirst, hrest, hgrouped⟩, ?_, ?_⟩
  · rw [climb_eq, Chain.toExpr_eq_spanned]
  · rintro c' ⟨rfl, rfl, hc'⟩
    exact hc'.eq_ofList

end Source

end Rivulet
