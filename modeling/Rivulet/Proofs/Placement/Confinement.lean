import Rivulet.Proofs.Ascending
import Rivulet.Proofs.Placement.Aliases

set_option autoImplicit false

/-! # Confined code

What the placement of a function is worth: a rule that its code keeps to. A `Confinement` names the
locals that closures hold, the sites each local may refer to, and the sites that are kept in a frame.
Code is *confined* if an expression that may be a sequence of such a site is never returned, passed to
a call, stored or bound to a held local, if closures capture held locals only, and if the aliases are
closed under its bindings.

The placement of a function gives a confinement for its whole code, the bodies of its closures
included (`Function.confined_body`, `Function.confined_closure`). -/

namespace Rivulet.Ir

/-- What an analysis says of a piece of code. -/
structure Confinement where
  /-- The locals that closures may capture. -/
  held : List LocalId
  aliases : Aliases
  /-- The sites whose sequences are not to be held by anything but locals of their own frame. -/
  kept : Site → Bool

namespace Confinement

/-- The value of an expression is not of a kept site. -/
def Releases (C : Confinement) (e : Expr) : Prop := ∀ σ ∈ C.aliases.ofExpr e, C.kept σ = false

/-- The value of an expression may be bound to a local. -/
def Binds (C : Confinement) (x : LocalId) (e : Expr) : Prop :=
  (∀ σ ∈ C.aliases.ofExpr e, σ ∈ C.aliases.ofLocal x) ∧ (x ∈ C.held → C.Releases e)

end Confinement

mutual

/-- An expression is confined. -/
def Expr.Confined (C : Confinement) : Expr → Prop
  | .const _ _ | .local _ _ | .function _ _ | .builtin _ _ => True
  | .unary _ e _ | .len e _ | .alloc _ e _ _ => e.Confined C
  | .binary _ l r _ _ _ => l.Confined C ∧ r.Confined C
  | .call f as _ =>
      f.Confined C ∧ Expr.ConfinedList C as ∧
        ((∃ j, f = .builtin .println j) ∨ ∀ a ∈ as, C.Releases a)
  | .index s p _ _ => s.Confined C ∧ p.Confined C
  | .slice es _ _ => Expr.ConfinedList C es ∧ ∀ e ∈ es, C.Releases e
  | .closure _ _ cs b _ => (∀ x ∈ cs, x ∈ C.held) ∧ Stmt.ConfinedBlock C b
termination_by structural e => e

/-- Every expression of a list is confined. -/
def Expr.ConfinedList (C : Confinement) : List Expr → Prop
  | [] => True
  | e :: es => e.Confined C ∧ Expr.ConfinedList C es
termination_by structural es => es

/-- A statement is confined. -/
def Stmt.Confined (C : Confinement) : Stmt → Prop
  | .bind x e | .assign x e => e.Confined C ∧ C.Binds x e
  | .store s p v _ => s.Confined C ∧ p.Confined C ∧ v.Confined C ∧ C.Releases v
  | .expr e => e.Confined C
  | .return es => Expr.ConfinedList C es ∧ ∀ e ∈ es, C.Releases e
  | .if c t e => c.Confined C ∧ Stmt.ConfinedBlock C t ∧ Stmt.ConfinedBlock C e
  | .while c b => c.Confined C ∧ Stmt.ConfinedBlock C b
  | .break => True
  | .for _ a z b => a.Confined C ∧ z.Confined C ∧ Stmt.ConfinedBlock C b
termination_by structural s => s

/-- A block is confined. -/
def Stmt.ConfinedBlock (C : Confinement) : List Stmt → Prop
  | [] => True
  | s :: ss => s.Confined C ∧ Stmt.ConfinedBlock C ss
termination_by structural ss => ss

end

/-! ## Closures in confined code -/

/-- The closure in an expression, if it is one, is confined. -/
def Expr.ClosureConfined (C : Confinement) : Expr → Prop
  | .closure _ _ cs b _ => (∀ x ∈ cs, x ∈ C.held) ∧ Stmt.ConfinedBlock C b
  | _ => True

section Closures

variable {C : Confinement}

mutual

theorem Expr.Confined.closures : ∀ {e : Expr}, e.Confined C → ∀ d ∈ e.parts, d.ClosureConfined C
  | .const _ _, _ | .local _ _, _ | .function _ _, _ | .builtin _ _, _ => by
      simp [Expr.parts, Expr.ClosureConfined]
  | .unary _ e _, h | .len e _, h | .alloc _ e _ _, h => by
      simp only [Expr.parts, List.forall_mem_cons]
      exact ⟨trivial, Expr.Confined.closures (e := e) h⟩
  | .binary _ l r _ _ _, h => by
      simp only [Expr.parts, List.forall_mem_cons, List.forall_mem_append]
      exact ⟨trivial, Expr.Confined.closures h.1, Expr.Confined.closures h.2⟩
  | .call f as _, h => by
      simp only [Expr.parts, List.forall_mem_cons, List.forall_mem_append]
      exact ⟨trivial, Expr.Confined.closures h.1, Expr.ConfinedList.closures h.2.1⟩
  | .index s p _ _, h => by
      simp only [Expr.parts, List.forall_mem_cons, List.forall_mem_append]
      exact ⟨trivial, Expr.Confined.closures h.1, Expr.Confined.closures h.2⟩
  | .slice es _ _, h => by
      simp only [Expr.parts, List.forall_mem_cons]
      exact ⟨trivial, Expr.ConfinedList.closures h.1⟩
  | .closure _ _ cs b _, h => by
      simp only [Expr.parts, List.forall_mem_cons]
      exact ⟨h, Stmt.ConfinedBlock.closures h.2⟩

theorem Expr.ConfinedList.closures : ∀ {es : List Expr}, Expr.ConfinedList C es →
    ∀ d ∈ Expr.partsList es, d.ClosureConfined C
  | [], _ => by simp [Expr.partsList]
  | e :: es, h => by
      simp only [Expr.partsList, List.forall_mem_append]
      exact ⟨Expr.Confined.closures h.1, Expr.ConfinedList.closures h.2⟩

theorem Stmt.Confined.closures : ∀ {s : Stmt}, s.Confined C → ∀ d ∈ s.parts, d.ClosureConfined C
  | .bind _ e, h | .assign _ e, h => Expr.Confined.closures (e := e) h.1
  | .store s p v _, h => by
      simp only [Stmt.parts, List.forall_mem_append]
      exact ⟨⟨Expr.Confined.closures h.1, Expr.Confined.closures h.2.1⟩,
        Expr.Confined.closures h.2.2.1⟩
  | .expr e, h => Expr.Confined.closures (e := e) h
  | .return es, h => Expr.ConfinedList.closures h.1
  | .if c t e, h => by
      simp only [Stmt.parts, List.forall_mem_append]
      exact ⟨⟨Expr.Confined.closures h.1, Stmt.ConfinedBlock.closures h.2.1⟩,
        Stmt.ConfinedBlock.closures h.2.2⟩
  | .while c b, h => by
      simp only [Stmt.parts, List.forall_mem_append]
      exact ⟨Expr.Confined.closures h.1, Stmt.ConfinedBlock.closures h.2⟩
  | .break, _ => by simp [Stmt.parts]
  | .for _ a z b, h => by
      simp only [Stmt.parts, List.forall_mem_append]
      exact ⟨⟨Expr.Confined.closures h.1, Expr.Confined.closures h.2.1⟩,
        Stmt.ConfinedBlock.closures h.2.2⟩

theorem Stmt.ConfinedBlock.closures : ∀ {ss : List Stmt}, Stmt.ConfinedBlock C ss →
    ∀ d ∈ Stmt.partsList ss, d.ClosureConfined C
  | [], _ => by simp [Stmt.partsList]
  | s :: ss, h => by
      simp only [Stmt.partsList, List.forall_mem_append]
      exact ⟨Stmt.Confined.closures h.1, Stmt.ConfinedBlock.closures h.2⟩

end

end Closures

/-! ## The rule, from lists

What the analysis collects over code: if nothing kept is among the escaping expressions, if the
aliases are closed under the bindings, and if captured locals are held, then the code is confined. -/

namespace Confinement

variable (C : Confinement)

/-- What was collected over a piece of code keeps to the rule. -/
structure Allows (bs : List Binding) (es ps : List Expr) : Prop where
  aliased : ∀ b ∈ bs, ∀ σ ∈ C.aliases.ofExpr b.value, σ ∈ C.aliases.ofLocal b.target
  released : ∀ e ∈ es, C.Releases e
  captured : ∀ x ∈ captured ps, x ∈ C.held

variable {C} {bs bs' : List Binding} {es es' ps ps' : List Expr}

theorem captured_append (ps ps' : List Expr) :
    captured (ps ++ ps') = captured ps ++ captured ps' := List.flatMap_append

theorem allows_append_iff :
    C.Allows (bs ++ bs') (es ++ es') (ps ++ ps') ↔ C.Allows bs es ps ∧ C.Allows bs' es' ps' := by
  constructor
  · rintro ⟨ha, hr, hc⟩
    rw [captured_append] at hc
    rw [List.forall_mem_append] at ha hr hc
    exact ⟨⟨ha.1, hr.1, hc.1⟩, ha.2, hr.2, hc.2⟩
  · rintro ⟨⟨ha, hr, hc⟩, ha', hr', hc'⟩
    refine ⟨List.forall_mem_append.2 ⟨ha, ha'⟩, List.forall_mem_append.2 ⟨hr, hr'⟩, ?_⟩
    rw [captured_append]
    exact List.forall_mem_append.2 ⟨hc, hc'⟩

/-- An expression that is no closure captures nothing by itself. -/
theorem Allows.tail {e : Expr} (h : C.Allows bs es (e :: ps)) : C.Allows bs es ps :=
  ⟨h.aliased, h.released, fun x hx => h.captured x (by
    simp only [Ir.captured, List.flatMap_cons, List.mem_append]
    exact .inr hx)⟩

/-- Some of the escaping expressions, and the others. -/
theorem Allows.releases {ds : List Expr} (h : C.Allows bs (ds ++ es) ps) :
    (∀ e ∈ ds, C.Releases e) ∧ C.Allows bs es ps :=
  ⟨fun e he => h.released e (List.mem_append_left _ he),
    ⟨h.aliased, fun e he => h.released e (List.mem_append_right _ he), h.captured⟩⟩

end Confinement

section Walk

variable {C : Confinement}

open Confinement

mutual

theorem Expr.confined_of_allows : ∀ {e : Expr},
    C.Allows e.bindings (e.escaping C.held) e.parts → e.Confined C
  | .const _ _, _ | .local _ _, _ | .function _ _, _ | .builtin _ _, _ => trivial
  | .unary _ e _, h | .len e _, h | .alloc _ e _ _, h => Expr.confined_of_allows (e := e) h.tail
  | .binary _ l r _ _ _, h => by
      obtain ⟨hl, hr⟩ := allows_append_iff.1 h.tail
      exact ⟨Expr.confined_of_allows hl, Expr.confined_of_allows hr⟩
  | .call f as i, h => by
      have h := h.tail
      simp only [Expr.bindings, Expr.escaping, List.append_assoc] at h
      obtain ⟨hargs, hrest⟩ := h.releases
      obtain ⟨hf, has⟩ := allows_append_iff.1 hrest
      refine ⟨Expr.confined_of_allows hf, Expr.confinedList_of_allows has, ?_⟩
      by_cases hprint : ∃ j, f = .builtin .println j
      · exact .inl hprint
      · refine .inr ?_
        split at hargs
        · exact absurd ⟨_, rfl⟩ hprint
        · exact hargs
  | .index s p _ _, h => by
      obtain ⟨hs, hp⟩ := allows_append_iff.1 h.tail
      exact ⟨Expr.confined_of_allows hs, Expr.confined_of_allows hp⟩
  | .slice es _ _, h => by
      obtain ⟨hes, hrest⟩ := h.tail.releases
      exact ⟨Expr.confinedList_of_allows hrest, hes⟩
  | .closure ps rs cs b i, h => by
      refine ⟨fun x hx => h.captured x ?_, Stmt.confinedBlock_of_allows h.tail⟩
      simp only [Expr.parts, captured, List.flatMap_cons, List.mem_append]
      exact .inl hx

theorem Expr.confinedList_of_allows : ∀ {es : List Expr},
    C.Allows (Expr.bindingsList es) (Expr.escapingList C.held es) (Expr.partsList es) →
      Expr.ConfinedList C es
  | [], _ => trivial
  | e :: es, h => by
      obtain ⟨he, hes⟩ := allows_append_iff.1 h
      exact ⟨Expr.confined_of_allows he, Expr.confinedList_of_allows hes⟩

theorem Stmt.confined_of_allows : ∀ {s : Stmt},
    C.Allows s.bindings (s.escaping C.held) s.parts → s.Confined C
  | .bind x e, h | .assign x e, h => by
      simp only [Stmt.bindings, Stmt.escaping, Stmt.parts] at h
      obtain ⟨hheld, hrest⟩ := h.releases
      have hbinds := hrest.aliased ⟨x, e⟩ (by simp)
      refine ⟨Expr.confined_of_allows ⟨fun b hb => hrest.aliased b (by simp [hb]), hrest.released,
        hrest.captured⟩, hbinds, fun hx => hheld e ?_⟩
      rw [if_pos hx]
      simp
  | .store s p v _, h => by
      have hall : C.Allows _ ([v] ++ _) _ := h
      obtain ⟨hv, hrest⟩ := hall.releases
      obtain ⟨hsp, hvr⟩ := allows_append_iff.1 hrest
      obtain ⟨hs, hp⟩ := allows_append_iff.1 hsp
      exact ⟨Expr.confined_of_allows hs, Expr.confined_of_allows hp, Expr.confined_of_allows hvr,
        hv v (by simp)⟩
  | .expr e, h => Expr.confined_of_allows (e := e) h
  | .return es, h => by
      obtain ⟨hes, hrest⟩ := Allows.releases h
      exact ⟨Expr.confinedList_of_allows hrest, hes⟩
  | .if c t e, h => by
      obtain ⟨hct, he⟩ := allows_append_iff.1 h
      obtain ⟨hc, ht⟩ := allows_append_iff.1 hct
      exact ⟨Expr.confined_of_allows hc, Stmt.confinedBlock_of_allows ht,
        Stmt.confinedBlock_of_allows he⟩
  | .while c b, h => by
      obtain ⟨hc, hb⟩ := allows_append_iff.1 h
      exact ⟨Expr.confined_of_allows hc, Stmt.confinedBlock_of_allows hb⟩
  | .break, _ => trivial
  | .for _ a z b, h => by
      obtain ⟨haz, hb⟩ := allows_append_iff.1 h
      obtain ⟨ha, hz⟩ := allows_append_iff.1 haz
      exact ⟨Expr.confined_of_allows ha, Expr.confined_of_allows hz, Stmt.confinedBlock_of_allows hb⟩

theorem Stmt.confinedBlock_of_allows : ∀ {ss : List Stmt},
    C.Allows (Stmt.bindingsList ss) (Stmt.escapingList C.held ss) (Stmt.partsList ss) →
      Stmt.ConfinedBlock C ss
  | [], _ => trivial
  | s :: ss, h => by
      obtain ⟨hs, hss⟩ := allows_append_iff.1 h
      exact ⟨Stmt.confined_of_allows hs, Stmt.confinedBlock_of_allows hss⟩

end

end Walk

/-! ## Functions -/

/-- What is collected over a piece of code is a part of it. -/
structure PartsOf (bs : List Binding) (es ps : List Expr) : Prop where
  bindings : ∀ b ∈ bs, b.value ∈ ps
  escaping : ∀ e ∈ es, e ∈ ps

namespace PartsOf

variable {bs bs' : List Binding} {es es' ps ps' : List Expr}

theorem append (h : PartsOf bs es ps) (h' : PartsOf bs' es' ps') :
    PartsOf (bs ++ bs') (es ++ es') (ps ++ ps') := by
  refine ⟨List.forall_mem_append.2 ⟨fun b hb => ?_, fun b hb => ?_⟩,
    List.forall_mem_append.2 ⟨fun e he => ?_, fun e he => ?_⟩⟩
  · exact List.mem_append_left _ (h.bindings b hb)
  · exact List.mem_append_right _ (h'.bindings b hb)
  · exact List.mem_append_left _ (h.escaping e he)
  · exact List.mem_append_right _ (h'.escaping e he)

theorem cons (h : PartsOf bs es ps) (e : Expr) : PartsOf bs es (e :: ps) :=
  ⟨fun b hb => List.mem_cons_of_mem _ (h.bindings b hb),
    fun d hd => List.mem_cons_of_mem _ (h.escaping d hd)⟩

theorem release {ds : List Expr} (h : PartsOf bs es ps) (hds : ∀ e ∈ ds, e ∈ ps) :
    PartsOf bs (ds ++ es) ps :=
  ⟨h.bindings, List.forall_mem_append.2 ⟨hds, h.escaping⟩⟩

theorem bind (h : PartsOf bs es ps) {x : LocalId} {e : Expr} (he : e ∈ ps) :
    PartsOf (⟨x, e⟩ :: bs) es ps :=
  ⟨List.forall_mem_cons.2 ⟨he, h.bindings⟩, h.escaping⟩

theorem nil (ps : List Expr) : PartsOf [] [] ps := ⟨by simp, by simp⟩

end PartsOf

section Parts

variable (held : List LocalId)

mutual

theorem Expr.partsOf : ∀ e : Expr, PartsOf e.bindings (e.escaping held) e.parts
  | .const _ _ | .local _ _ | .function _ _ | .builtin _ _ => .nil _
  | .unary _ e _ | .len e _ | .alloc _ e _ _ => (Expr.partsOf e).cons _
  | .binary _ l r _ _ _ => ((Expr.partsOf l).append (Expr.partsOf r)).cons _
  | .call f as i => by
      simp only [Expr.bindings, Expr.escaping, Expr.parts, List.append_assoc]
      refine (((Expr.partsOf f).append (Expr.partsOfList as)).release fun e he => ?_).cons _
      have hmem : e ∈ as := by
        split at he
        · cases he
        · exact he
      exact List.mem_append_right _ (Expr.mem_partsList_of_mem hmem)
  | .index s p _ _ => ((Expr.partsOf s).append (Expr.partsOf p)).cons _
  | .slice es _ _ => ((Expr.partsOfList es).release fun _ => Expr.mem_partsList_of_mem).cons _
  | .closure _ _ _ b _ => (Stmt.partsOfBlock b).cons _

theorem Expr.partsOfList : ∀ es : List Expr,
    PartsOf (Expr.bindingsList es) (Expr.escapingList held es) (Expr.partsList es)
  | [] => .nil _
  | e :: es => (Expr.partsOf e).append (Expr.partsOfList es)

theorem Stmt.partsOf : ∀ s : Stmt, PartsOf s.bindings (s.escaping held) s.parts
  | .bind x e | .assign x e => by
      refine ((Expr.partsOf e).release fun d hd => ?_).bind e.mem_parts_self
      split at hd
      · rw [List.mem_singleton.1 hd]
        exact e.mem_parts_self
      · cases hd
  | .store s p v _ => by
      have hparts := ((Expr.partsOf s).append (Expr.partsOf p)).append (Expr.partsOf v)
      refine hparts.release fun e (he : e ∈ [v]) => ?_
      rw [List.mem_singleton.1 he]
      exact List.mem_append_right _ v.mem_parts_self
  | .expr e => Expr.partsOf e
  | .return es => (Expr.partsOfList es).release fun _ => Expr.mem_partsList_of_mem
  | .if c t e => ((Expr.partsOf c).append (Stmt.partsOfBlock t)).append (Stmt.partsOfBlock e)
  | .while c b => (Expr.partsOf c).append (Stmt.partsOfBlock b)
  | .break => .nil _
  | .for _ a z b => ((Expr.partsOf a).append (Expr.partsOf z)).append (Stmt.partsOfBlock b)

theorem Stmt.partsOfBlock : ∀ ss : List Stmt,
    PartsOf (Stmt.bindingsList ss) (Stmt.escapingList held ss) (Stmt.partsList ss)
  | [] => .nil _
  | s :: ss => (Stmt.partsOf s).append (Stmt.partsOfBlock ss)

end

end Parts

/-- Sites are ordered by their numbers. -/
instance : IsStrictTotalOrder Site (· < ·) where
  irrefl a := Nat.lt_irrefl a.index
  trans _ _ _ := Nat.lt_trans
  trichotomous a b hab hba := by
    have hindex : a.index = b.index := Nat.le_antisymm (Nat.not_lt.1 hba) (Nat.not_lt.1 hab)
    cases a
    cases b
    exact congrArg Site.mk hindex

namespace Function

/-- The heap is where the sequences of a site go that escapes. -/
theorem mem_placements_heap {f : Function} {σ : Site} (hσ : σ ∈ f.sites)
    (hesc : σ ∈ f.escapingSites) : (σ, .heap) ∈ f.placements := by
  simp only [placements, List.mem_map, Ascending.mem_ofList_iff]
  exact ⟨σ, hσ, by simp [hesc]⟩

/-- Every site has one placement. -/
theorem not_mem_placements_stack {f : Function} {σ : Site} (h : (σ, .heap) ∈ f.placements) :
    (σ, .stack) ∉ f.placements := by
  simp only [placements, List.mem_map, Ascending.mem_ofList_iff, Prod.mk.injEq] at h ⊢
  rintro ⟨τ, -, rfl, hτ⟩
  obtain ⟨ρ, -, rfl, hρ⟩ := h
  rw [hρ] at hτ
  cases hτ

/-- What the placement of a function says of its code. -/
def confinement (f : Function) : Confinement where
  held := captured f.parts
  aliases := .close (Stmt.bindingsList f.body)
  kept := fun σ => decide ((σ, .heap) ∉ f.placements)

/-- The sites that an expression of a function may be are sites of the function. -/
theorem mem_sites_of_mem_ofExpr {f : Function} {e : Expr} (he : e ∈ f.parts) {σ : Site}
    (hσ : σ ∈ f.confinement.aliases.ofExpr e) : σ ∈ f.sites := by
  have hsite : ∀ d ∈ f.parts, d.site? = some σ → σ ∈ f.sites := fun d hd hs =>
    List.mem_filterMap.2 ⟨d, hd, hs⟩
  cases hv : e with
  | alloc t n s i | slice es s i =>
      rw [hv] at hσ
      obtain rfl := List.mem_singleton.1 hσ
      exact hsite e he (by rw [hv]; rfl)
  | «local» x i =>
      rw [hv] at hσ
      obtain ⟨b, hb, hbs⟩ := Aliases.exists_binding_of_mem_close (Aliases.mem_ofLocal.1 hσ)
      exact hsite b.value ((Stmt.partsOfBlock f.confinement.held f.body).bindings b hb) hbs
  | _ => rw [hv] at hσ; simp [Aliases.ofExpr] at hσ

/-- **The code of a function keeps to its placement.** -/
theorem confined_body (f : Function) : Stmt.ConfinedBlock f.confinement f.body := by
  refine Stmt.confinedBlock_of_allows ⟨fun b hb σ hσ => ?_, fun e he σ hσ => ?_, fun x hx => hx⟩
  · exact Aliases.mem_ofLocal.2 (Aliases.closed_close _ b hb σ hσ)
  · have hpart : e ∈ f.parts := (Stmt.partsOfBlock f.confinement.held f.body).escaping e he
    have hesc : σ ∈ f.escapingSites :=
      List.mem_append_left _ (List.mem_flatMap.2 ⟨e, he, hσ⟩)
    have hheap := mem_placements_heap (mem_sites_of_mem_ofExpr hpart hσ) hesc
    simp only [confinement, decide_not, Bool.not_eq_false', decide_eq_true_eq]
    exact hheap

/-- The body of a closure keeps to the placement of the function it is written in, and its captures
are held. -/
theorem confined_closure {f : Function} {ps cs : List LocalId} {rs : List Ty} {b : List Stmt}
    {i : Info} (h : Expr.closure ps rs cs b i ∈ f.parts) :
    (∀ x ∈ cs, x ∈ f.confinement.held) ∧ Stmt.ConfinedBlock f.confinement b :=
  f.confined_body.closures _ h

end Function

end Rivulet.Ir
