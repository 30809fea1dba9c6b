import Rivulet.Proofs.Code.Constants
import Rivulet.Proofs.Lowering.Steps

set_option autoImplicit false

/-! # The shape of lowered code

Lowering adds allocations, counted loops and stores to code that has none of them, and it adds them in
one pattern only. A temporary is bound to a new slice, and the very next statement is the loop that
fills this slice, element by element, with the results of calls (`Stmt.ElementLoop`). In between no
other code sees the slice: the loop reads other locals than the one that holds it.

`Stmt.TameBlock` says this of a block. It goes through the statements and remembers the local that an
allocation in front has left to be filled. It also says to which locals the block assigns; lowering
adds assignments to new temporaries only. -/

namespace Rivulet.Ir

/-- The loop that fills the slice in `out` with the results of calls, one for each element of a
sequence. What it reads is kept in other locals. -/
def Stmt.ElementLoop (out x : LocalId) (first last : Expr) (body : List Stmt) : Prop :=
  ∃ len fn seq i₁ i₂ i₃ i₄ i₅ i₆ i₇ i₈ i₉,
    first = .const (.int 0) i₁ ∧ last = .local len i₂ ∧
      body = [.store (.local out i₃) (.local x i₄)
        (.call (.local fn i₅) [.index (.local seq i₆) (.local x i₇) .elided i₈] i₉) .elided] ∧
      len ≠ out ∧ fn ≠ out ∧ seq ≠ out ∧ x ≠ out

/-- The local that a statement leaves to be filled: one that is bound to a new slice. -/
def Stmt.opened : Stmt → Option LocalId
  | .bind x (.alloc _ _ _ _) => some x
  | _ => none

mutual

/-- Lowered code of an expression, with assignments to locals in `A` only. -/
def Expr.Tame (A : LocalId → Prop) : Expr → Prop
  | .const _ _ | .local _ _ | .function _ _ | .builtin _ _ => True
  | .unary _ e _ | .len e _ => e.Tame A
  | .binary _ l r _ _ _ => l.Tame A ∧ r.Tame A
  | .call f as _ => f.Tame A ∧ Expr.TameList A as
  | .index s p _ _ => s.Tame A ∧ p.Tame A
  | .slice es _ _ => Expr.TameList A es
  | .closure _ _ _ b _ => Stmt.TameBlock A none b
  | .alloc _ _ _ _ => False
termination_by structural e => e

/-- Lowered code of several expressions. -/
def Expr.TameList (A : LocalId → Prop) : List Expr → Prop
  | [] => True
  | e :: es => e.Tame A ∧ Expr.TameList A es
termination_by structural es => es

/-- Lowered code of a statement, behind one that has left `o` to be filled. -/
def Stmt.Tame (A : LocalId → Prop) (o : Option LocalId) : Stmt → Prop
  | .bind _ e => o = none ∧ (e.Tame A ∨ ∃ t len i s j, e = .alloc t (.local len i) s j)
  | .assign x e => o = none ∧ A x ∧ e.Tame A
  | .expr e => o = none ∧ e.Tame A
  | .return es => o = none ∧ Expr.TameList A es
  | .if c t e => o = none ∧ c.Tame A ∧ Stmt.TameBlock A none t ∧ Stmt.TameBlock A none e
  | .while c b => o = none ∧ c.Tame A ∧ Stmt.TameBlock A none b
  | .break => o = none
  | .for x a z b => ∃ out, o = some out ∧ Stmt.ElementLoop out x a z b
  | .store _ _ _ _ => False
termination_by structural s => s

/-- Lowered code of a block, behind a statement that has left `o` to be filled. -/
def Stmt.TameBlock (A : LocalId → Prop) (o : Option LocalId) : List Stmt → Prop
  | [] => o = none
  | s :: ss => s.Tame A o ∧ Stmt.TameBlock A s.opened ss
termination_by structural ss => ss

end

section Tame

variable {A : LocalId → Prop}

theorem Stmt.TameBlock.append {o : Option LocalId} {ss ts : List Stmt}
    (hs : Stmt.TameBlock A o ss) (ht : Stmt.TameBlock A none ts) :
    Stmt.TameBlock A o (ss ++ ts) := by
  induction ss generalizing o with
  | nil =>
      rw [Stmt.TameBlock] at hs
      rwa [hs]
  | cons s ss ih => exact ⟨hs.1, ih hs.2⟩

theorem Expr.TameList.append {es ds : List Expr} (hes : Expr.TameList A es)
    (hds : Expr.TameList A ds) : Expr.TameList A (es ++ ds) := by
  induction es with
  | nil => exact hds
  | cons e es ih => exact ⟨hes.1, ih hes.2⟩

theorem Stmt.TameBlock.of_mem {o : Option LocalId} {ss : List Stmt} (h : Stmt.TameBlock A o ss)
    {s : Stmt} (hs : s ∈ ss) : ∃ o', s.Tame A o' := by
  induction ss generalizing o with
  | nil => cases hs
  | cons t ss ih =>
      rcases List.mem_cons.1 hs with rfl | hs
      · exact ⟨o, h.1⟩
      · exact ih h.2 hs

/-- What comes behind a statement that has left a local to be filled is the loop that fills it. -/
theorem Stmt.Tame.of_opened {out : LocalId} {s : Stmt} (h : s.Tame A (some out)) :
    ∃ x first last body, s = .for x first last body ∧ Stmt.ElementLoop out x first last body := by
  cases s with
  | «for» x first last body =>
      obtain ⟨out', hout, hloop⟩ := h
      cases hout
      exact ⟨x, first, last, body, rfl, hloop⟩
  | «break» => cases show some out = none from h
  | store => exact h.elim
  | bind | assign | expr | «return» | «if» | «while» => cases h.1

/-- A statement that leaves a local to be filled binds it to a new slice. -/
theorem Stmt.Tame.allocates {o : Option LocalId} {out : LocalId} {s : Stmt} (h : s.Tame A o)
    (hs : s.opened = some out) : ∃ t len i site j, s = .bind out (.alloc t (.local len i) site j) := by
  cases s with
  | bind x e =>
      obtain ⟨-, he | ⟨t, len, i, site, j, rfl⟩⟩ := h
      · cases e with
        | alloc => exact he.elim
        | _ => cases hs
      · cases hs
        exact ⟨t, len, i, site, j, rfl⟩
  | _ => cases hs

/-! ## Closures in lowered code -/

section Closures

variable {ps : List LocalId} {rs : List Ty} {cs : List LocalId} {b : List Stmt} {i : Info}

theorem Stmt.ElementLoop.no_closure {out x : LocalId} {first last : Expr} {body : List Stmt}
    (h : Stmt.ElementLoop out x first last body) :
    .closure ps rs cs b i ∉ (Stmt.for x first last body).parts := by
  obtain ⟨len, fn, seq, i₁, i₂, i₃, i₄, i₅, i₆, i₇, i₈, i₉, rfl, rfl, rfl, -⟩ := h
  simp [Stmt.parts, Stmt.partsList, Expr.parts, Expr.partsList]

mutual

theorem Expr.Tame.closure : ∀ {e : Expr}, e.Tame A → .closure ps rs cs b i ∈ e.parts →
    Stmt.TameBlock A none b
  | .const _ _, _, h | .local _ _, _, h | .function _ _, _, h | .builtin _ _, _, h => by
      simp [Expr.parts] at h
  | .unary _ e _, he, h | .len e _, he, h => by
      simp only [Expr.parts, List.mem_cons, reduceCtorEq, false_or] at h
      exact Expr.Tame.closure (e := e) he h
  | .binary _ l r _ _ _, he, h | .index l r _ _, he, h => by
      simp only [Expr.parts, List.mem_cons, reduceCtorEq, false_or, List.mem_append] at h
      exact h.elim (Expr.Tame.closure he.1) (Expr.Tame.closure he.2)
  | .call f as _, he, h => by
      simp only [Expr.parts, List.mem_cons, reduceCtorEq, false_or, List.mem_append] at h
      exact h.elim (Expr.Tame.closure he.1) (Expr.TameList.closure he.2)
  | .slice es _ _, he, h => by
      simp only [Expr.parts, List.mem_cons, reduceCtorEq, false_or] at h
      exact Expr.TameList.closure (show Expr.TameList A es from he) h
  | .closure _ _ _ inner _, he, h => by
      rw [Expr.parts, List.mem_cons] at h
      rcases h with h | h
      · cases h
        exact he
      · exact Stmt.TameBlock.closure (show Stmt.TameBlock A none inner from he) h
  | .alloc _ _ _ _, he, _ => he.elim

theorem Expr.TameList.closure : ∀ {es : List Expr}, Expr.TameList A es →
    .closure ps rs cs b i ∈ Expr.partsList es → Stmt.TameBlock A none b
  | [], _, h => by simp [Expr.partsList] at h
  | _ :: _, hes, h =>
      (List.mem_append.1 h).elim (Expr.Tame.closure hes.1) (Expr.TameList.closure hes.2)

theorem Stmt.Tame.closure {o : Option LocalId} : ∀ {s : Stmt}, s.Tame A o →
    .closure ps rs cs b i ∈ s.parts → Stmt.TameBlock A none b
  | .bind _ e, hs, h => by
      obtain ⟨-, he | ⟨t, len, j, s, k, rfl⟩⟩ := hs
      · exact Expr.Tame.closure he h
      · simp [Stmt.parts, Expr.parts] at h
  | .assign _ _, hs, h => Expr.Tame.closure hs.2.2 h
  | .expr _, hs, h => Expr.Tame.closure hs.2 h
  | .return _, hs, h => Expr.TameList.closure hs.2 h
  | .if c t e, hs, h => by
      simp only [Stmt.parts, List.mem_append] at h
      exact h.elim (fun h => h.elim (Expr.Tame.closure hs.2.1) (Stmt.TameBlock.closure hs.2.2.1))
        (Stmt.TameBlock.closure hs.2.2.2)
  | .while c d, hs, h =>
      (List.mem_append.1 h).elim (Expr.Tame.closure hs.2.1) (Stmt.TameBlock.closure hs.2.2)
  | .break, _, h => by simp [Stmt.parts] at h
  | .for _ _ _ _, hs, h => by
      obtain ⟨out, -, hloop⟩ := hs
      exact absurd h hloop.no_closure
  | .store _ _ _ _, hs, _ => hs.elim

theorem Stmt.TameBlock.closure {o : Option LocalId} : ∀ {ss : List Stmt}, Stmt.TameBlock A o ss →
    .closure ps rs cs b i ∈ Stmt.partsList ss → Stmt.TameBlock A none b
  | [], _, h => by simp [Stmt.partsList] at h
  | _ :: _, hss, h =>
      (List.mem_append.1 h).elim (Stmt.Tame.closure hss.1) (Stmt.TameBlock.closure hss.2)

end

end Closures

/-- **Lowered code assigns to the given locals only**, wherever the assignment stands. -/
theorem Stmt.TameBlock.assigns {o : Option LocalId} {ss : List Stmt} {x : LocalId} {v : Expr}
    (hss : Stmt.TameBlock A o ss) (h : Stmt.StandsIn (.assign x v) ss) : A x := by
  induction h generalizing o with
  | here h =>
      obtain ⟨o', hs⟩ := hss.of_mem h
      exact hs.2.1
  | thenBlock h _ ih =>
      obtain ⟨o', hs⟩ := hss.of_mem h
      exact ih hs.2.2.1
  | elseBlock h _ ih =>
      obtain ⟨o', hs⟩ := hss.of_mem h
      exact ih hs.2.2.2
  | whileBody h _ ih =>
      obtain ⟨o', hs⟩ := hss.of_mem h
      exact ih hs.2.2
  | forBody h hs ih =>
      obtain ⟨o', out, -, hloop⟩ := hss.of_mem h
      -- the body of an element loop is a single store, without a closure in it
      cases hs with
      | here hb =>
          obtain ⟨len, fn, seq, i₁, i₂, i₃, i₄, i₅, i₆, i₇, i₈, i₉, rfl, rfl, rfl, -⟩ := hloop
          simp at hb
      | closureBody hb _ =>
          exact absurd (List.mem_append_right _ hb) hloop.no_closure
      | thenBlock hb _ | elseBlock hb _ | whileBody hb _ | forBody hb _ =>
          obtain ⟨len, fn, seq, i₁, i₂, i₃, i₄, i₅, i₆, i₇, i₈, i₉, rfl, rfl, rfl, -⟩ := hloop
          simp at hb
  | closureBody h _ ih => exact ih (hss.closure h)

end Tame

/-! ## Plain code is tame -/

section Plain

variable {A : LocalId → Prop}

mutual

theorem Expr.Plain.tame : ∀ {e : Expr}, e.Plain A → e.Tame A
  | .const _ _, _ | .local _ _, _ | .function _ _, _ | .builtin _ _, _ => trivial
  | .unary _ e _, h | .len e _, h => Expr.Plain.tame (e := e) h
  | .binary _ _ _ _ _ _, h | .index _ _ _ _, h => ⟨h.1.tame, h.2.tame⟩
  | .call _ _ _, h => ⟨h.1.tame, h.2.tame⟩
  | .slice es _ _, h => show Expr.TameList A es from Expr.PlainList.tame h
  | .closure _ _ _ b _, h => show Stmt.TameBlock A none b from Stmt.PlainBlock.tame h
  | .alloc _ _ _ _, h => h.elim

theorem Expr.PlainList.tame : ∀ {es : List Expr}, Expr.PlainList A es → Expr.TameList A es
  | [], _ => trivial
  | _ :: _, h => ⟨h.1.tame, h.2.tame⟩

theorem Stmt.Plain.tame : ∀ {s : Stmt}, s.Plain A → s.Tame A none ∧ s.opened = none
  | .bind _ e, h => by
      refine ⟨⟨rfl, .inl (Expr.Plain.tame h)⟩, ?_⟩
      cases e with
      | alloc t n s i => exact h.elim
      | _ => rfl
  | .assign _ _, h => ⟨⟨rfl, h.1, h.2.tame⟩, rfl⟩
  | .expr e, h => ⟨⟨rfl, Expr.Plain.tame (e := e) h⟩, rfl⟩
  | .return _, h => ⟨⟨rfl, Expr.PlainList.tame h⟩, rfl⟩
  | .if _ _ _, h => ⟨⟨rfl, h.1.tame, h.2.1.tame, h.2.2.tame⟩, rfl⟩
  | .while _ _, h => ⟨⟨rfl, h.1.tame, h.2.tame⟩, rfl⟩
  | .store _ _ _ _, h | .break, h | .for _ _ _ _, h => h.elim

/-- **Plain code is tame code** without element loops. -/
theorem Stmt.PlainBlock.tame : ∀ {ss : List Stmt}, Stmt.PlainBlock A ss → Stmt.TameBlock A none ss
  | [], _ => rfl
  | _ :: _, h => by
      obtain ⟨hs, hopened⟩ := Stmt.Plain.tame h.1
      exact ⟨hs, hopened ▸ Stmt.PlainBlock.tame h.2⟩

end

end Plain

/-! ## Lowering -/

namespace Lowering

variable {A : LocalId → Prop} {n : Nat}

/-- A step that starts with at least `n` locals gives what is described. -/
def Gives {α : Type} (n : Nat) (x : Lower α) (Q : α → Prop) : Prop :=
  ∀ st a st', n ≤ st.size → Lowers x st a st' → n ≤ st'.size ∧ Q a

namespace Gives

variable {α β : Type} {x : Lower α} {f : α → Lower β} {P : α → Prop} {Q : β → Prop}

theorem pure {a : α} (h : P a) : Gives n (pure a) P := by
  intro st b st' hst hb
  obtain ⟨rfl, rfl⟩ := hb.pure_inv
  exact ⟨hst, h⟩

theorem bind (hx : Gives n x P) (hf : ∀ a, P a → Gives n (f a) Q) : Gives n (x >>= f) Q := by
  intro st b st'' hst hb
  obtain ⟨a, st', ha, hb⟩ := hb.bind_inv
  obtain ⟨hst', hP⟩ := hx st a st' hst ha
  exact hf a hP st' b st'' hst' hb

end Gives

/-- Hoisted statements and what is left of an expression, in lowered code. -/
def TameHoist (A : LocalId → Prop) (p : Hoisted Expr) : Prop :=
  Stmt.TameBlock A none p.1 ∧ p.2.Tame A

/-- Hoisted statements and what is left of several expressions. -/
def TameHoists (A : LocalId → Prop) (p : Hoisted (List Expr)) : Prop :=
  Stmt.TameBlock A none p.1 ∧ Expr.TameList A p.2

theorem tame_bind {x : LocalId} {e : Expr} (he : e.Tame A) : Stmt.TameBlock A none [.bind x e] := by
  refine ⟨⟨rfl, .inl he⟩, ?_⟩
  cases e with
  | alloc t n s i => exact he.elim
  | _ => rfl

theorem gives_spillBefore (later : List Stmt) {e : Expr} (he : e.Tame A) :
    Gives n (spillBefore later e) (TameHoist A) := by
  rintro st ⟨s, d⟩ st' hst hs
  rcases spillBefore_inv hs with ⟨rfl, rfl, rfl, -⟩ | ⟨x, rfl, rfl, -, hsize, -⟩
  · exact ⟨hst, rfl, he⟩
  · exact ⟨by omega, tame_bind he, trivial⟩

theorem gives_spillAllBefore (later : List Stmt) : ∀ {es : List Expr}, Expr.TameList A es →
    Gives n (spillAllBefore later es) (TameHoists A)
  | [], _ => .pure ⟨rfl, trivial⟩
  | _ :: _, hes =>
      .bind (gives_spillBefore later hes.1) fun _ he =>
        .bind (gives_spillAllBefore later hes.2) fun _ hes =>
          .pure ⟨he.1.append hes.1, he.2, hes.2⟩

/-- The temporary of a short circuit is new, so it may be assigned to. -/
theorem gives_shortCircuit (hA : ∀ x : LocalId, n ≤ x.index → A x) (op : BinaryOp) {l r : Expr}
    {h : List Stmt} (hl : l.Tame A) (hh : Stmt.TameBlock A none h) (hr : r.Tame A) :
    Gives n (shortCircuit op l h r) (TameHoist A) := by
  intro st q st' hst hq
  obtain ⟨x, hx, hsize, rfl⟩ := shortCircuit_inv hq
  have hassign : Stmt.TameBlock A none [.assign x r] := ⟨⟨rfl, hA x (by omega), hr⟩, rfl⟩
  have hif : Stmt.TameBlock A none [.if (if op = .and then .local x ⟨.bool, l.span⟩
      else negate (.local x ⟨.bool, l.span⟩)) (h ++ [.assign x r]) []] := by
    refine ⟨⟨rfl, ?_, hh.append hassign, rfl⟩, rfl⟩
    split <;> trivial
  exact ⟨by omega, (tame_bind hl).append hif, trivial⟩

/-- The temporaries of a map are distinct, because their numbers are. -/
theorem tame_mapLoop {site : Site} {result element : Ty} {i j k : Info} {seq fn : LocalId}
    {q : Hoisted Expr} {st st' : State} (hseq : seq.index < st.size) (hfn : fn.index < st.size)
    (h : Lowers (mapLoop site result element i (.local seq j) (.local fn k)) st q st') :
    TameHoist A q := by
  obtain ⟨len, out, x, jl, jo, hlen, hout, hx, -, rfl⟩ := mapLoop_inv h
  have hne : ∀ {y : LocalId}, y.index ≠ st.size + 1 → y ≠ out := by
    rintro y hy rfl
    exact hy hout
  have hloop : Stmt.ElementLoop out x (.const (.int 0) ⟨.i64, i.span⟩) (.local len jl)
      [.store (.local out jo) (.local x ⟨.i64, i.span⟩)
        (.call (.local fn k) [.index (.local seq j) (.local x ⟨.i64, i.span⟩) .elided
          ⟨element, i.span⟩] ⟨result, i.span⟩) .elided] :=
    ⟨len, fn, seq, _, _, _, _, _, _, _, _, _, rfl, rfl, rfl, hne (by omega), hne (by omega),
      hne (by omega), hne (by omega)⟩
  refine ⟨⟨⟨rfl, .inl trivial⟩, ⟨rfl, .inr ⟨_, _, _, _, _, rfl⟩⟩, ⟨out, rfl, hloop⟩, rfl⟩, trivial⟩

theorem tame_loop {h b : List Stmt} {c : Expr} (hh : Stmt.TameBlock A none h) (hc : c.Tame A)
    (hb : Stmt.TameBlock A none b) : (loop h c b).Tame A none := by
  unfold loop
  split
  · exact ⟨rfl, hc, hb⟩
  · have hleave : Stmt.TameBlock A none [.if (negate c) [.break] []] :=
      ⟨⟨rfl, hc, ⟨rfl, rfl⟩, rfl⟩, rfl⟩
    exact ⟨rfl, trivial, (hh.append hleave).append hb⟩

/-- A map whose operands are lowered well is. -/
theorem gives_map {l r : Expr} (hl : Gives n (expr l) (TameHoist A))
    (hr : Gives n (expr r) (TameHoist A)) (t : Option Ty) (facts : Option MapFacts) (i : Info) :
    Gives n (expr (.binary .map l r t facts i)) (TameHoist A) := by
  intro st q st' hst hq
  cases map_steps hq with
  | intro hparts hll hseq hrl hfn hloop =>
  obtain ⟨hst₁, hh₁, hdl⟩ := hl _ _ _ hst hll
  obtain ⟨xs, heq, hxs, hst₂⟩ := bindTemp_inv hseq
  cases heq
  obtain ⟨-, hh₂, hdr⟩ := hr _ _ _ (by omega) hrl
  obtain ⟨xf, heq, hxf, hst₄⟩ := bindTemp_inv hfn
  cases heq
  have hst₃ := hrl.size_le (grows_expr r)
  have hst₅ := hloop.size_le (grows_mapLoop _ _ _ _ _ _)
  obtain ⟨hh₃, hout⟩ := tame_mapLoop (A := A) (by omega) (by omega) hloop
  exact ⟨by omega, (((hh₁.append (tame_bind hdl)).append hh₂).append (tame_bind hdr)).append hh₃,
    hout⟩

/-- An operator other than a map whose operands are lowered well is. -/
theorem gives_operator (hA : ∀ x : LocalId, n ≤ x.index → A x) {op : BinaryOp} (hop : op ≠ .map)
    {l r : Expr} (hl : Gives n (expr l) (TameHoist A)) (hr : Gives n (expr r) (TameHoist A))
    (t : Option Ty) (facts : Option MapFacts) (i : Info) :
    Gives n (expr (.binary op l r t facts i)) (TameHoist A) := by
  unfold expr
  rw [if_neg hop]
  refine .bind hl fun p hp => .bind hr fun q hq => ?_
  dsimp only
  split
  · split
    · exact .pure ⟨hp.1, hp.2, hq.2⟩
    · exact .bind (gives_shortCircuit hA op hp.2 hq.1 hq.2) fun u hu => .pure ⟨hp.1.append hu.1, hu.2⟩
  · exact .bind (gives_spillBefore q.1 hp.2) fun u hu =>
      .pure ⟨(hp.1.append hu.1).append hq.1, hu.2, hq.2⟩

mutual

theorem gives_expr (hA : ∀ x : LocalId, n ≤ x.index → A x) :
    ∀ {e : Expr}, e.Plain A → Gives n (expr e) (TameHoist A)
  | .const _ _, _ | .local _ _, _ | .function _ _, _ | .builtin _ _, _ => .pure ⟨rfl, trivial⟩
  | .unary _ e _, h | .len e _, h =>
      .bind (gives_expr hA (e := e) h) fun _ he => .pure he
  | .binary op l r t facts i, h => by
      by_cases hop : op = .map
      · subst hop
        exact gives_map (gives_expr hA h.1) (gives_expr hA h.2) t facts i
      · exact gives_operator hA hop (gives_expr hA h.1) (gives_expr hA h.2) t facts i
  | .call f as i, h => by
      refine .bind (gives_expr hA h.1) fun p hp =>
        .bind (gives_exprs hA ⟨hp.2, trivial⟩ h.2) fun q hq => ?_
      obtain ⟨h₂, es⟩ := q
      cases es with
      | nil => exact .pure ⟨hp.1.append hq.1, hp.2, trivial⟩
      | cons e es => exact .pure ⟨hp.1.append hq.1, hq.2.1, hq.2.2⟩
  | .index _ _ _ _, h =>
      .bind (gives_expr hA h.1) fun _ hs => .bind (gives_expr hA h.2) fun _ hp =>
        .bind (gives_spillBefore _ hs.2) fun _ hu =>
          .pure ⟨(hs.1.append hu.1).append hp.1, hu.2, hp.2⟩
  | .slice es _ _, h =>
      .bind (gives_exprs hA (show Expr.TameList A [] from trivial)
        (show Expr.PlainList A es from h)) fun _ hes => .pure hes
  | .closure _ _ _ b _, h =>
      .bind (gives_block hA (show Stmt.PlainBlock A b from h)) fun _ hb => .pure ⟨rfl, hb⟩
  | .alloc _ _ _ _, h => h.elim

theorem gives_exprs (hA : ∀ x : LocalId, n ≤ x.index → A x) :
    ∀ {done es : List Expr}, Expr.TameList A done → Expr.PlainList A es →
    Gives n (exprs done es) (TameHoists A)
  | _, [], hdone, _ => .pure ⟨rfl, hdone⟩
  | _, _ :: _, hdone, hes =>
      .bind (gives_expr hA hes.1) fun p hp => .bind (gives_spillAllBefore p.1 hdone) fun _ hs =>
        .bind (gives_exprs hA (hs.2.append ⟨hp.2, trivial⟩) hes.2) fun _ hall =>
          .pure ⟨(hs.1.append hp.1).append hall.1, hall.2⟩

theorem gives_stmt (hA : ∀ x : LocalId, n ≤ x.index → A x) :
    ∀ {s : Stmt}, s.Plain A → Gives n (stmt s) (Stmt.TameBlock A none)
  | .bind _ e, h =>
      .bind (gives_expr hA (e := e) h) fun _ he => .pure (he.1.append (tame_bind he.2))
  | .assign _ _, h =>
      .bind (gives_expr hA h.2) fun _ he => .pure (he.1.append ⟨⟨rfl, h.1, he.2⟩, rfl⟩)
  | .expr e, h =>
      .bind (gives_expr hA (e := e) h) fun _ he => .pure (he.1.append ⟨⟨rfl, he.2⟩, rfl⟩)
  | .return es, h =>
      .bind (gives_exprs hA (show Expr.TameList A [] from trivial)
        (show Expr.PlainList A es from h)) fun _ hes =>
          .pure (hes.1.append ⟨⟨rfl, hes.2⟩, rfl⟩)
  | .if _ _ _, h =>
      .bind (gives_expr hA h.1) fun _ hc => .bind (gives_block hA h.2.1) fun _ ht =>
        .bind (gives_block hA h.2.2) fun _ he => .pure (hc.1.append ⟨⟨rfl, hc.2, ht, he⟩, rfl⟩)
  | .while _ _, h =>
      .bind (gives_expr hA h.1) fun _ hc => .bind (gives_block hA h.2) fun _ hb =>
        .pure ⟨tame_loop hc.1 hc.2 hb, by unfold loop; split <;> rfl⟩
  | .store _ _ _ _, h | .break, h | .for _ _ _ _, h => h.elim

theorem gives_block (hA : ∀ x : LocalId, n ≤ x.index → A x) :
    ∀ {ss : List Stmt}, Stmt.PlainBlock A ss →
    Gives n (block ss) (Stmt.TameBlock A none)
  | [], _ => .pure rfl
  | _ :: _, h =>
      .bind (gives_stmt hA h.1) fun _ hs =>
        .bind (gives_block hA h.2) fun _ hss => .pure (hs.append hss)

end

end Lowering

/-- **Plain code becomes tame code.** What may be assigned to are the locals in `A`, to which the
temporaries that lowering adds must belong. If lowering fails, no code is left. -/
theorem Function.tame_lower {A : LocalId → Prop} {f : Function} (hplain : Stmt.PlainBlock A f.body)
    (hA : ∀ x : LocalId, f.ctx.locals.size ≤ x.index → A x) :
    Stmt.TameBlock A none f.lower.2.body := by
  unfold Function.lower
  split
  · rename_i b st hb
    exact (Lowering.gives_block hA hplain _ b st le_rfl hb).2
  · rfl

/-- Lowering a module lowers each of its functions, or leaves it as it is. -/
theorem Module.forall₂_lower (m : Module) :
    List.Forall₂ (fun f f' => f' = f ∨ f' = f.lower.2) m.functions m.lower.2.functions := by
  change List.Forall₂ _ m.functions (Lowering.functions Function.lower m.functions).2
  induction m.functions with
  | nil => exact .nil
  | cons f fs ih =>
      unfold Lowering.functions
      split
      · rename_i e f' hf
        exact .cons (.inr (by rw [hf])) (List.forall₂_same.2 fun _ _ => .inl rfl)
      · rename_i n f' hf
        exact .cons (.inr (by rw [hf])) ih

end Rivulet.Ir
