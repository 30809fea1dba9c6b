import Rivulet.Proofs.Source.FreeNames
import Rivulet.Source.Capture

set_option autoImplicit false

/-! # The walk that finds captures

The walk over a function writes into its closures what `Expr.resolve` writes
(`Function.resolve_eq_resolveAmong`): a name that is free in the body of a closure and visible around
it reaches the closure, however many closures lie between the use and the declaration.

A part of the walk is described by what it *finds* (`Walker.Finds`): the tree that it makes, the
scopes that it leaves open, and the names that it uses, of which exactly those that are visible in
`outer` are captured. A closure between a use and a declaration captures the name, because the name
is free in it and visible around it, and uses it in turn where it stands. -/

namespace Rivulet

namespace Source

/-! ## Scopes -/

/-- The names in scope. -/
def Scopes.names (scopes : Scopes) : List String := scopes.frames.flatten

namespace Scopes

theorem contains_iff {scopes : Scopes} {x : String} :
    scopes.contains x = true ↔ x ∈ scopes.names := by
  simp [contains, names]

theorem names_within (scopes outer : Scopes) :
    (scopes.within outer).names = scopes.names ++ outer.names := List.flatten_append

theorem names_single (frame : List String) : names ⟨[frame]⟩ = frame := List.append_nil frame

end Scopes

namespace Walker

variable {α β : Type} {outer scopes : Scopes}

/-- In the scopes `scopes`, the part `m` of a walk makes `a`, leaves the scopes `left`, and captures
those of the names `used` that are visible in `outer`. -/
def Finds (outer scopes : Scopes) (m : Walker α) (a : α) (left : Scopes) (used : List String) :
    Prop :=
  ∀ captured, ∃ captured', m.run ⟨scopes, captured⟩ = (a, ⟨left, captured'⟩) ∧
    (captured.Pairwise (· < ·) → captured'.Pairwise (· < ·)) ∧
      ∀ x, x ∈ captured' ↔ x ∈ captured ∨ (x ∈ used ∧ x ∈ outer.names)

namespace Finds

theorem pure (a : α) : Finds outer scopes (Pure.pure a) a scopes [] :=
  fun captured => ⟨captured, rfl, id, by simp⟩

theorem bind {m : Walker α} {f : α → Walker β} {a : α} {b : β} {scopes' left : Scopes}
    {used used' : List String} (hm : Finds outer scopes m a scopes' used)
    (hf : Finds outer scopes' (f a) b left used') :
    Finds outer scopes (m >>= f) b left (used ++ used') := by
  intro captured
  obtain ⟨first, hrun, hascends, hmem⟩ := hm captured
  obtain ⟨second, hrun', hascends', hmem'⟩ := hf first
  refine ⟨second, ?_, fun h => hascends' (hascends h), fun x => ?_⟩
  · rw [StateT.run_bind, hrun]
    exact hrun'
  · rw [hmem', hmem, List.mem_append]
    tauto

/-- What is done to the result at the end uses no names. -/
theorem map {m : Walker α} {a : α} {left : Scopes} {used : List String}
    (hm : Finds outer scopes m a left used) (f : α → β) :
    Finds outer scopes (m >>= fun a => Pure.pure (f a)) (f a) left used := by
  have h : Finds outer scopes (m >>= fun a => Pure.pure (f a)) (f a) left (used ++ []) :=
    hm.bind (.pure (f a))
  rwa [List.append_nil] at h

theorem congr {m : Walker α} {a : α} {left : Scopes} {used used' : List String}
    (hm : Finds outer scopes m a left used) (h : ∀ x ∈ outer.names, (x ∈ used ↔ x ∈ used')) :
    Finds outer scopes m a left used' := by
  intro captured
  obtain ⟨captured', hrun, hascends, hmem⟩ := hm captured
  refine ⟨captured', hrun, hascends, fun x => ?_⟩
  rw [hmem]
  exact or_congr_right (and_congr_left (h x))

/-! ## Small parts of the walk -/

theorem useName (x : String) :
    Finds outer scopes (Walker.useName outer x) () scopes (freeName scopes.names x) := by
  intro captured
  have hrun : (Walker.useName outer x).run ⟨scopes, captured⟩
      = ((), if !scopes.contains x && outer.contains x
          then ⟨scopes, Ascending.insert x captured⟩ else ⟨scopes, captured⟩) := rfl
  by_cases hx : (!scopes.contains x && outer.contains x) = true
  · refine ⟨Ascending.insert x captured, by rw [hrun, if_pos hx], Ascending.pairwise_insert x,
      fun y => ?_⟩
    simp only [Bool.and_eq_true, Bool.not_eq_true', ← Bool.not_eq_true, Scopes.contains_iff] at hx
    rw [Ascending.mem_insert_iff, mem_freeName_iff]
    constructor
    · rintro (rfl | hy)
      · exact .inr ⟨⟨rfl, hx.1⟩, hx.2⟩
      · exact .inl hy
    · rintro (hy | ⟨⟨rfl, -⟩, -⟩)
      · exact .inr hy
      · exact .inl rfl
  · refine ⟨captured, by rw [hrun, if_neg hx], id, fun y => ?_⟩
    simp only [Bool.and_eq_true, Bool.not_eq_true', ← Bool.not_eq_true, Scopes.contains_iff] at hx
    rw [mem_freeName_iff]
    constructor
    · exact .inl
    · rintro (hy | ⟨⟨rfl, hscopes⟩, houter⟩)
      · exact hy
      · exact absurd ⟨hscopes, houter⟩ hx

theorem useNames : ∀ xs : List String,
    Finds outer scopes (xs.forM (Walker.useName outer)) () scopes (xs.flatMap (freeName scopes.names))
  | [] => .pure ()
  | x :: xs => (useName x).bind (useNames xs)

theorem declare {frame : List String} {frames : List (List String)} (x : String) :
    Finds outer ⟨frame :: frames⟩ (Walker.declare x) () ⟨(x :: frame) :: frames⟩ [] :=
  fun captured => ⟨captured, rfl, id, by simp⟩

/-- What a block declares is forgotten at its end. -/
theorem inScope {block : Walker α} {a : α} {used : List String}
    (hblock : ∃ frame, Finds outer scopes.push block a ⟨frame :: scopes.frames⟩ used) :
    Finds outer scopes (Walker.inScope block) a scopes used := by
  intro captured
  obtain ⟨frame, hblock⟩ := hblock
  obtain ⟨captured', hrun, hascends, hmem⟩ := hblock captured
  refine ⟨captured', ?_, hascends, hmem⟩
  have hpushed : (Walker.inScope block).run ⟨scopes, captured⟩
      = ((block.run ⟨scopes.push, captured⟩).1,
          { (block.run ⟨scopes.push, captured⟩).2 with
            scopes := (block.run ⟨scopes.push, captured⟩).2.scopes.pop }) := rfl
  rw [hpushed, hrun]
  rfl

/-- A closure captures what its body uses of the names around it. Where it stands, it uses those of
its captures that come from outside of the surrounding body. -/
theorem inClosure {params used used' : List String} {a : α} {left : Scopes}
    (body : Scopes → Walker α)
    (hbody : Finds (scopes.within outer) ⟨[params]⟩ (body (scopes.within outer)) a left used)
    (hused : ∀ x, x ∈ used' ↔ x ∈ used ∧ x ∉ scopes.names) :
    Finds outer scopes (Walker.inClosure outer params body)
      (a, captures (scopes.names ++ outer.names) used) scopes used' := by
  obtain ⟨captured, hrun, hascends, hmem⟩ := hbody []
  have hmem' : ∀ x, x ∈ captured ↔ x ∈ used ∧ x ∈ scopes.names ++ outer.names := fun x => by
    rw [hmem, Scopes.names_within]
    simp
  have hcaptures : captures (scopes.names ++ outer.names) used = captured :=
    (Ascending.pairwise_ofList _).eq_of_mem_iff (hascends .nil) fun x =>
      mem_captures_iff.trans (hmem' x).symm
  -- the walk over the body is over, what is left is the use of its captures
  have hafter : Finds outer scopes (Walker.inClosure outer params body) (a, captured) scopes
      (captured.flatMap (freeName scopes.names)) := by
    intro captured'
    obtain ⟨captured'', hrun', hcaptured⟩ :=
      (useNames captured).map (fun _ => (a, captured)) captured'
    refine ⟨captured'', ?_, hcaptured⟩
    have hwalk : (Walker.inClosure outer params body).run ⟨scopes, captured'⟩
        = (fun inner : α × Walk => (inner.2.captured.forM (Walker.useName outer) >>= fun _ =>
            Pure.pure (inner.1, inner.2.captured)).run ⟨scopes, captured'⟩)
          ((body (scopes.within outer)).run ⟨⟨[params]⟩, []⟩) := rfl
    rw [hwalk, hrun]
    exact hrun'
  rw [hcaptures]
  refine hafter.congr fun x hx => ?_
  simp only [List.mem_flatMap, mem_freeName_iff, hmem', hused, List.mem_append]
  constructor
  · rintro ⟨_, ⟨hx', -⟩, rfl, hscopes⟩
    exact ⟨hx', hscopes⟩
  · rintro ⟨hx', hscopes⟩
    exact ⟨x, ⟨hx', .inr hx⟩, rfl, hscopes⟩

end Finds

end Walker

/-! ## The walk over a tree -/

open Walker (Finds)

theorem Scopes.names_declared (xs frame : List String) (frames : List (List String)) :
    Scopes.names ⟨(xs ++ frame) :: frames⟩ = xs ++ Scopes.names ⟨frame :: frames⟩ :=
  List.append_assoc xs frame frames.flatten

mutual

theorem Expr.walk_finds (outer scopes : Scopes) : ∀ e : Expr,
    Finds outer scopes (e.walk outer) (e.resolve (scopes.names ++ outer.names)) scopes
      (e.free scopes.names)
  | .literal _ _ | .emptySeq _ _ | .error _ => .pure _
  | .name x _ => (Finds.useName x).map _
  | .unary _ e _ => (Expr.walk_finds outer scopes e).map _
  | .binary _ l r _ =>
      (Expr.walk_finds outer scopes l).bind ((Expr.walk_finds outer scopes r).map _)
  | .seq es _ => (Expr.walkList_finds outer scopes es).map _
  | .index e i _ =>
      (Expr.walk_finds outer scopes e).bind ((Expr.walk_finds outer scopes i).map _)
  | .call f as _ =>
      (Expr.walk_finds outer scopes f).bind ((Expr.walkList_finds outer scopes as).map _)
  | .lambda ps b _ s => by
      have hbody := Expr.walk_finds (scopes.within outer) ⟨[ps.map OpenParam.name]⟩ b
      rw [Scopes.names_single, Scopes.names_within] at hbody
      exact (Finds.inClosure (fun around => b.walk around) hbody fun _ =>
        Expr.mem_free_append_iff _ _ b).map fun r => Expr.lambda ps r.1 r.2 s
  | .block ps rs b _ s => by
      have hbody := Stmt.walkList_finds (scopes.within outer) [] [ps.map Param.name] b
      have hnames : Scopes.names ⟨[[], ps.map Param.name]⟩ = ps.map Param.name :=
        Scopes.names_single _
      rw [hnames, Scopes.names_within] at hbody
      exact (Finds.inClosure (fun around => Walker.inScope (Stmt.walkList around b))
        (.inScope hbody) fun _ => Stmt.mem_freeBlock_append_iff _ _ b).map
          fun r => Expr.block ps rs r.1 r.2 s

theorem Expr.walkList_finds (outer scopes : Scopes) : ∀ es : List Expr,
    Finds outer scopes (Expr.walkList outer es)
      (Expr.resolveList (scopes.names ++ outer.names) es) scopes (Expr.freeList scopes.names es)
  | [] => .pure _
  | e :: es => (Expr.walk_finds outer scopes e).bind ((Expr.walkList_finds outer scopes es).map _)

theorem Stmt.walk_finds (outer : Scopes) (frame : List String) (frames : List (List String)) :
    ∀ s : Stmt,
      Finds outer ⟨frame :: frames⟩ (s.walk outer)
        (s.resolve (Scopes.names ⟨frame :: frames⟩ ++ outer.names))
        ⟨(s.declared ++ frame) :: frames⟩ (s.free (Scopes.names ⟨frame :: frames⟩))
  | .declare c x t e s => by
      have h := (Expr.walk_finds outer ⟨frame :: frames⟩ e).bind
        (f := fun e => Walker.declare x >>= fun _ => pure (Stmt.declare c x t e s))
        ((Finds.declare x).map _)
      rw [List.append_nil] at h
      exact h
  | .assign x e _ => (Finds.useName x).bind ((Expr.walk_finds outer _ e).map _)
  | .ifThen c b _ | .while c b _ =>
      (Expr.walk_finds outer _ c).bind (.map (.inScope (Stmt.walkList_finds outer [] _ b)) _)
  | .ifElse c b d _ => by
      rw [Stmt.free, List.append_assoc]
      exact (Expr.walk_finds outer _ c).bind
        (.bind (.inScope (Stmt.walkList_finds outer [] _ b))
          (.map (.inScope (Stmt.walkList_finds outer [] _ d)) _))
  | .return es _ => (Expr.walkList_finds outer _ es).map _
  | .expr e _ => (Expr.walk_finds outer _ e).map _
  | .error _ => .pure _

theorem Stmt.walkList_finds (outer : Scopes) (frame : List String) (frames : List (List String)) :
    ∀ ss : List Stmt, ∃ frame',
      Finds outer ⟨frame :: frames⟩ (Stmt.walkList outer ss)
        (Stmt.resolveBlock (Scopes.names ⟨frame :: frames⟩ ++ outer.names) ss)
        ⟨frame' :: frames⟩ (Stmt.freeBlock (Scopes.names ⟨frame :: frames⟩) ss)
  | [] => ⟨frame, .pure _⟩
  | s :: ss => by
      obtain ⟨frame', hrest⟩ := Stmt.walkList_finds outer (s.declared ++ frame) frames ss
      rw [Scopes.names_declared, List.append_assoc] at hrest
      exact ⟨frame', (Stmt.walk_finds outer frame frames s).bind (hrest.map _)⟩

end

/-! ## Functions and programs -/

/-- The captures in a function are those that its closures have among its parameters. -/
theorem Function.resolve_eq_resolveAmong (f : Function) :
    f.resolve = f.resolveAmong (f.params.map Param.name) := by
  have hbody : Finds ⟨[]⟩ ⟨[f.params.map Param.name]⟩
      (Walker.inScope (Stmt.walkList ⟨[]⟩ f.body))
      (Stmt.resolveBlock (f.params.map Param.name) f.body) ⟨[f.params.map Param.name]⟩
      (Stmt.freeBlock (f.params.map Param.name) f.body) := by
    have hlist := Stmt.walkList_finds ⟨[]⟩ [] [f.params.map Param.name] f.body
    have hnames : Scopes.names ⟨[[], f.params.map Param.name]⟩ = f.params.map Param.name :=
      Scopes.names_single _
    have hnone : Scopes.names ⟨[]⟩ = [] := rfl
    rw [hnames, hnone, List.append_nil] at hlist
    exact .inScope hlist
  obtain ⟨captured, hrun, -⟩ := hbody []
  rw [Function.resolve, hrun, Function.resolveAmong]

/-- Around the body of a function, its parameters are visible. -/
theorem Program.resolve_eq_resolveAmong (p : Program) :
    p.resolve = p.resolveAmong fun f => f.params.map Param.name := by
  rw [Program.resolve, Program.resolveAmong, funext Function.resolve_eq_resolveAmong]

/-- Resolving captures neither adds nor removes text that could not be parsed. -/
theorem Program.whole_resolve (p : Program) : p.resolve.Whole ↔ p.Whole := by
  simp only [Program.Whole, Program.resolve_eq_resolveAmong, Program.resolveAmong,
    List.forall_mem_map, Function.resolveAmong, Stmt.wholeBlock_resolve]

end Source

end Rivulet
