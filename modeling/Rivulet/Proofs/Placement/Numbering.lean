import Rivulet.Proofs.Compiled.Stages
import Rivulet.Proofs.Lowering.Conservation
import Rivulet.Proofs.Placement.Confinement

set_option autoImplicit false

/-! # Every allocation site has one number

Two passes hand out allocation sites: the generator gives one to each sequence literal, and later each
map gets one for its result. Both use the counter of the function, so the sites that a piece of code
was given are an interval of numbers, from where the counter stood before to where it stands after.
`Issues` says this of a step. It is closed under sequencing, as intervals that follow each other make
up one interval.

Lowering keeps the sites of literals and turns the sites of maps into those of new slices. In the end
the sites in the code of a function are the numbers below its counter, each of them once, and
placement decides for each of them. -/

namespace Rivulet.Ir

/-! ## Intervals of sites -/

/-- The sites from one number up to another. -/
def Site.interval (i j : Nat) : Multiset Site := ↑((List.range' i (j - i)).map Site.mk)

namespace Site

theorem interval_self (i : Nat) : interval i i = 0 := by
  simp [interval]

theorem interval_succ (i : Nat) : interval i (i + 1) = {⟨i⟩} := by
  simp [interval]

theorem interval_add {i j k : Nat} (hij : i ≤ j) (hjk : j ≤ k) :
    interval i j + interval j k = interval i k := by
  rw [interval, interval, interval, Multiset.coe_add, ← List.map_append]
  have happend := List.range'_append_1 (s := i) (m := j - i) (n := k - j)
  rw [Nat.add_sub_cancel' hij, show j - i + (k - j) = k - i by omega] at happend
  rw [happend]

theorem interval_zero (n : Nat) : interval 0 n = ↑((List.range n).map mk) := by
  rw [interval, Nat.sub_zero, List.range_eq_range']

end Site

/-! ## Steps that hand out sites -/

/-- Wherever a step leads, it only counts up, and what it gives is as described in terms of the sites
that were handed out on the way. -/
def Issues {α : Type} (steps : Context → α → Context → Prop) (Q : α → Multiset Site → Prop) : Prop :=
  ∀ ctx a ctx', steps ctx a ctx' →
    ctx.nextSite ≤ ctx'.nextSite ∧ Q a (Site.interval ctx.nextSite ctx'.nextSite)

namespace Issues

variable {α β : Type} {steps : Context → α → Context → Prop}
  {next : α → Context → β → Context → Prop} {P : α → Multiset Site → Prop}
  {Q : β → Multiset Site → Prop}

/-- What two steps in a row hand out is what they hand out together. -/
theorem sequence (h : Issues steps P) (h' : ∀ a S, P a S → Issues (next a) fun b T => Q b (S + T)) :
    Issues (fun ctx b ctx'' => ∃ a ctx', steps ctx a ctx' ∧ next a ctx' b ctx'') Q := by
  rintro ctx b ctx'' ⟨a, ctx', ha, hb⟩
  obtain ⟨hle, hP⟩ := h ctx a ctx' ha
  obtain ⟨hle', hQ⟩ := h' a _ hP ctx' b ctx'' hb
  -- the second interval starts where the first one ends
  rw [Site.interval_add hle hle'] at hQ
  exact ⟨hle.trans hle', hQ⟩

/-- A step that leaves the counter alone hands out nothing. -/
theorem of_nextSite_eq (h : ∀ ctx a ctx', steps ctx a ctx' → ctx'.nextSite = ctx.nextSite ∧ P a 0) :
    Issues steps P := by
  intro ctx a ctx' ha
  obtain ⟨hsite, hP⟩ := h ctx a ctx' ha
  rw [hsite, Site.interval_self]
  exact ⟨le_rfl, hP⟩

end Issues

/-! ## The sites of literals -/

/-- A map has no site of its own before it is lowered. -/
theorem Expr.snd_load_binary (op : BinaryOp) (l r : Expr) (t : Option Ty) (facts : Option MapFacts)
    (i : Info) : (Expr.binary op l r t facts i).load.2 = 0 := by
  rw [Expr.load]
  split <;> rfl

namespace Make

/-- The sites that a step of the generator hands out. -/
abbrev Issues {α : Type} (make : Make α) (Q : α → Multiset Site → Prop) : Prop :=
  Ir.Issues (Makes make) Q

namespace Issues

variable {α β : Type} {make : Make α} {next : α → Make β} {P : α → Multiset Site → Prop}
  {Q : β → Multiset Site → Prop}

theorem pure {a : α} (h : P a 0) : Make.Issues (pure a) P :=
  .of_nextSite_eq fun ctx b ctx' hb => by
    obtain ⟨rfl, rfl⟩ := hb.pure_inv
    exact ⟨rfl, h⟩

theorem bind (h : Make.Issues make P)
    (h' : ∀ a S, P a S → Make.Issues (next a) fun b T => Q b (S + T)) :
    Make.Issues (make >>= next) Q := fun ctx b ctx'' hb =>
  h.sequence h' ctx b ctx'' hb.bind_inv

/-- A step that hands out nothing in front of another. -/
theorem after (h : Make.Issues make fun _ S => S = 0) (h' : ∀ a, Make.Issues (next a) Q) :
    Make.Issues (make >>= next) Q :=
  h.bind fun a S hS => by
    subst hS
    simpa only [zero_add] using h' a

theorem lift (x : Except Breach α) : Make.Issues (liftM x) fun _ S => S = 0 :=
  .of_nextSite_eq fun _ _ _ ha => ⟨congrArg Context.nextSite ha.lift_inv.2, rfl⟩

end Issues

theorem issues_declare (name : String) (t : Ty) : Issues (declare name t) fun _ S => S = 0 :=
  .of_nextSite_eq fun ctx x ctx' hx => by
    have heq : (Except.ok (ctx.declare name t) : Except Breach _) = .ok (x, ctx') := hx
    cases heq
    exact ⟨rfl, rfl⟩

theorem issues_freshSite : Issues freshSite fun s S => S = {s} := by
  intro ctx s ctx' hs
  have heq : (Except.ok ctx.freshSite : Except Breach _) = .ok (s, ctx') := hs
  cases heq
  exact ⟨Nat.le_succ _, Site.interval_succ _⟩

theorem issues_lookup (scope : Scope) (x : String) (s : Span) :
    Issues (lookup scope x s) fun _ S => S = 0 :=
  .of_nextSite_eq fun _ _ _ hx => ⟨congrArg Context.nextSite (lookup_inv hx).2, rfl⟩

theorem issues_captures (scope : Scope) (cs : List String) (s : Span) :
    Issues (cs.mapM fun x => lookup scope x s) fun _ S => S = 0 :=
  .of_nextSite_eq fun _ _ _ hcs => ⟨congrArg Context.nextSite (captures_inv hcs).2, rfl⟩

theorem issues_operandType (op : BinaryOp) (l r : Expr) (s : Span) :
    Issues (operandType op l r s) fun _ S => S = 0 := by
  unfold operandType
  split
  · split
    · exact .pure rfl
    · intro ctx a ctx' h
      cases h
  · exact .pure rfl

theorem issues_params (ps : List Typed.Param) :
    ∀ scope : Scope, Issues (params scope ps) fun _ S => S = 0 := by
  induction ps with
  | nil => exact fun scope => .pure rfl
  | cons p ps ih =>
      intro scope
      exact .after (.lift _) fun t => .after (issues_declare p.name t) fun x =>
        .after (ih _) fun _ => .pure rfl

mutual

/-- The sites in the code of an expression are those that were handed out for it. -/
theorem issues_expr : ∀ (e : Typed.Expr) (scope : Scope),
    Issues (expr scope e) fun e' S => (load e'.parts).2 = S
  | .int _ _, _ | .bool _ _, _ | .str _ _, _ | .function _ _, _ | .builtin _ _, _ =>
      .after (.lift _) fun _ => .pure rfl
  | .local x i, scope =>
      .after (.lift _) fun _ => .after (issues_lookup scope x i.span) fun _ => .pure rfl
  | .unary op e i, scope =>
      .after (.lift _) fun _ => .bind (issues_expr e scope) fun e' S he =>
        .pure (by simp [Expr.parts, load_cons, Expr.load, he])
  | .binary op l r i, scope =>
      .after (.lift _) fun _ => .bind (issues_expr l scope) fun l' S hl =>
        .bind (issues_expr r scope) fun r' T hr =>
          .after (issues_operandType op l' r' i.span) fun _ =>
            .pure (by simp [Expr.parts, load_cons, load_append, Expr.snd_load_binary, hl, hr])
  | .seq es i, scope =>
      -- the elements come first, so the literal has a higher number than the literals in it
      .after (.lift _) fun _ => .bind (issues_exprs es scope) fun es' S hes =>
        .bind issues_freshSite fun s T hs =>
          .pure (by simp [Expr.parts, load_cons, Expr.load, hes, hs, add_comm])
  | .index e p i, scope =>
      .after (.lift _) fun _ => .bind (issues_expr e scope) fun e' S he =>
        .bind (issues_expr p scope) fun p' T hp =>
          .pure (by simp [Expr.parts, load_cons, load_append, Expr.load, he, hp])
  | .call f as i, scope => by
      -- `len` of one argument is an expression of its own
      rcases expr_call_cases scope f as i with ⟨j, a, rfl, rfl⟩ | hcall
      · exact .after (.lift _) fun _ => .bind (issues_expr a scope) fun a' S ha =>
          .pure (by simp [Expr.parts, load_cons, Expr.load, ha])
      · rw [hcall]
        exact .after (.lift _) fun _ => .bind (issues_expr f scope) fun f' S hf =>
          .bind (issues_exprs as scope) fun as' T has =>
            .pure (by simp [Expr.parts, load_cons, load_append, Expr.load, hf, has])
  | .closure ps rs b cs i, scope =>
      .after (.lift _) fun _ => .after (issues_captures scope cs i.span) fun cs' =>
        .after (issues_params ps scope) fun inner => .after (.lift _) fun _ =>
          .bind (issues_block b inner.2) fun b' S hb =>
            .pure (by simp [Expr.parts, load_cons, Expr.load, hb])
  | .error i, _ => .after (.lift _) fun _ ctx a ctx' h => by cases h

theorem issues_exprs : ∀ (es : List Typed.Expr) (scope : Scope),
    Issues (exprs scope es) fun es' S => (load (Expr.partsList es')).2 = S
  | [], _ => .pure rfl
  | e :: es, scope =>
      .bind (issues_expr e scope) fun e' S he => .bind (issues_exprs es scope) fun es' T hes =>
        .pure (by simp [Expr.partsList, load_append, he, hes])

theorem issues_stmt : ∀ (s : Typed.Stmt) (scope : Scope),
    Issues (stmt scope s) fun s' S => (load s'.1.parts).2 = S
  | .declare _ x t e s, scope =>
      .bind (issues_expr e scope) fun e' S he => .after (.lift _) fun t =>
        .after (issues_declare x t) fun y => .pure (by simp [Stmt.parts, he])
  | .assign x e s, scope =>
      .after (issues_lookup scope x s) fun y => .bind (issues_expr e scope) fun e' S he =>
        .pure (by simp [Stmt.parts, he])
  | .if c t e _, scope =>
      .bind (issues_expr c scope) fun c' S hc => .bind (issues_block t scope) fun t' T ht =>
        .bind (issues_block e scope) fun e' U he =>
          .pure (by simp [Stmt.parts, load_append, hc, ht, he])
  | .while c b _, scope =>
      .bind (issues_expr c scope) fun c' S hc => .bind (issues_block b scope) fun b' T hb =>
        .pure (by simp [Stmt.parts, load_append, hc, hb])
  | .return es _, scope =>
      .bind (issues_exprs es scope) fun es' S hes => .pure (by simp [Stmt.parts, hes])
  | .expr e _, scope =>
      .bind (issues_expr e scope) fun e' S he => .pure (by simp [Stmt.parts, he])

theorem issues_block : ∀ (ss : List Typed.Stmt) (scope : Scope),
    Issues (block scope ss) fun ss' S => (load (Stmt.partsList ss')).2 = S
  | [], _ => .pure rfl
  | s :: ss, scope =>
      .bind (issues_stmt s scope) fun s' S hs => .bind (issues_block ss s'.2) fun ss' T hss =>
        .pure (by simp [Stmt.partsList, load_append, hs, hss])

end

theorem issues_function (f : Typed.Function) :
    Issues (function f) fun r S => (load (Stmt.partsList r.2.2)).2 = S :=
  .after (issues_params f.params []) fun inner => .after (.lift _) fun rs =>
    .bind (issues_block f.body inner.2) fun b S hb => .pure (by simp [hb])

end Make

/-- The sites in the code that was made of a function are the numbers below its counter. -/
theorem Function.sites_of_ofTyped {f : Typed.Function} {g : Function}
    (h : Function.ofTyped f = .ok g) : (load g.parts).2 = Site.interval 0 g.ctx.nextSite := by
  unfold Function.ofTyped at h
  cases hrun : (Make.function f).run {} with
  | error b =>
      rw [hrun] at h
      cases h
  | ok r =>
      rw [hrun] at h
      cases h
      exact (Make.issues_function f {} r.1 r.2 hrun).2

/-! ## The sites of maps -/

namespace SiteM

/-- The sites that are handed out for maps. -/
abbrev Issues {α : Type} (x : SiteM α) (Q : α → Multiset Site → Prop) : Prop :=
  Ir.Issues (fun ctx a ctx' => x.run ctx = (a, ctx')) Q

namespace Issues

variable {α β : Type} {x : SiteM α} {next : α → SiteM β} {P : α → Multiset Site → Prop}
  {Q : β → Multiset Site → Prop}

theorem pure {a : α} (h : P a 0) : SiteM.Issues (pure a) P :=
  .of_nextSite_eq fun ctx b ctx' hb => by
    cases hb
    exact ⟨rfl, h⟩

theorem bind (h : SiteM.Issues x P)
    (h' : ∀ a S, P a S → SiteM.Issues (next a) fun b T => Q b (S + T)) :
    SiteM.Issues (x >>= next) Q := fun ctx b ctx'' hb =>
  h.sequence h' ctx b ctx'' ⟨(x.run ctx).1, (x.run ctx).2, rfl, hb⟩

end Issues

theorem issues_freshMapFacts : Issues freshMapFacts fun facts S => S = {facts.result} := by
  intro ctx facts ctx' h
  cases h
  exact ⟨Nat.le_succ _, Site.interval_succ _⟩

/-- Some expressions are due to have the sites of others, and those that were handed out. -/
def Owes (ps ps' : List Expr) (S : Multiset Site) : Prop := (due ps').2 = (load ps).2 + S

namespace Owes

variable {ps ps' qs qs' : List Expr} {S T : Multiset Site}

theorem append (h : Owes ps ps' S) (h' : Owes qs qs' T) : Owes (ps ++ qs) (ps' ++ qs') (S + T) := by
  unfold Owes at *
  rw [due_append, load_append, Prod.snd_add, Prod.snd_add, h, h']
  abel

/-- An expression in front that is given a site, or none. -/
theorem cons {e d : Expr} (h : Owes ps ps' S) (hd : d.due.2 = e.load.2 + T) :
    Owes (e :: ps) (d :: ps') (S + T) := by
  unfold Owes at *
  rw [due_cons, load_cons, Prod.snd_add, Prod.snd_add, h, hd]
  abel

/-- An expression in front that is neither a literal nor a map. -/
theorem cons_bare {e d : Expr} (h : Owes ps ps' S) (hd : d.due = 0) (he : e.load = 0) :
    Owes (e :: ps) (d :: ps') S := by
  simpa using h.cons (T := 0) (by rw [hd, he, add_zero])

end Owes

mutual

theorem issues_expr : ∀ e : Expr, Issues e.withMapFacts fun e' S => Owes e.parts e'.parts S
  | .const _ _ | .local _ _ | .function _ _ | .builtin _ _ => .pure rfl
  | .unary op e i =>
      .bind (issues_expr e) fun e' S he => .pure (by simpa [Expr.parts] using he.cons_bare rfl rfl)
  | .binary op l r t facts i => by
      refine .bind (issues_expr l) fun l' S hl => .bind (issues_expr r) fun r' T hr => ?_
      have hparts := hl.append hr
      -- a map is given a site, behind those of its operands
      split
      · rename_i hop
        refine .bind issues_freshMapFacts fun facts' U hU => .pure ?_
        have howes := hparts.cons (T := U) (e := .binary op l r t facts i)
          (d := .binary op l' r' t (some facts') i) (by simp [Expr.due, Expr.load, hop, hU])
        simpa [Expr.parts, add_assoc] using howes
      · rename_i hop
        have howes := hparts.cons_bare (e := .binary op l r t facts i)
          (d := .binary op l' r' t facts i) (by simp [Expr.due, hop]) (by simp [Expr.load, hop])
        exact .pure (by simpa [Expr.parts] using howes)
  | .call f as i =>
      .bind (issues_expr f) fun f' S hf => .bind (issues_exprs as) fun as' T has =>
        .pure (by simpa [Expr.parts] using (hf.append has).cons_bare rfl rfl)
  | .index s p b i =>
      .bind (issues_expr s) fun s' S hs => .bind (issues_expr p) fun p' T hp =>
        .pure (by simpa [Expr.parts] using (hs.append hp).cons_bare rfl rfl)
  | .len e i =>
      .bind (issues_expr e) fun e' S he => .pure (by simpa [Expr.parts] using he.cons_bare rfl rfl)
  | .alloc t e s i =>
      .bind (issues_expr e) fun e' S he =>
        .pure (by simpa [Expr.parts] using he.cons (T := 0) rfl)
  | .slice es s i =>
      .bind (issues_exprs es) fun es' S hes =>
        .pure (by simpa [Expr.parts] using hes.cons (T := 0) rfl)
  | .closure ps rs cs b i =>
      .bind (issues_block b) fun b' S hb => .pure (by simpa [Expr.parts] using hb.cons_bare rfl rfl)

theorem issues_exprs : ∀ es : List Expr,
    Issues (Expr.withMapFactsList es) fun es' S => Owes (Expr.partsList es) (Expr.partsList es') S
  | [] => .pure rfl
  | e :: es =>
      .bind (issues_expr e) fun e' S he => .bind (issues_exprs es) fun es' T hes =>
        .pure (by simpa [Expr.partsList] using he.append hes)

theorem issues_stmt : ∀ s : Stmt, Issues s.withMapFacts fun s' S => Owes s.parts s'.parts S
  | .bind _ e | .assign _ e | .expr e =>
      .bind (issues_expr e) fun e' S he => .pure (by simpa [Stmt.parts] using he)
  | .store s p v b =>
      .bind (issues_expr s) fun s' S hs => .bind (issues_expr p) fun p' T hp =>
        .bind (issues_expr v) fun v' U hv =>
          .pure (by simpa [Stmt.parts, add_assoc] using (hs.append hp).append hv)
  | .return es => .bind (issues_exprs es) fun es' S hes => .pure (by simpa [Stmt.parts] using hes)
  | .if c t e =>
      .bind (issues_expr c) fun c' S hc => .bind (issues_block t) fun t' T ht =>
        .bind (issues_block e) fun e' U he =>
          .pure (by simpa [Stmt.parts, add_assoc] using (hc.append ht).append he)
  | .while c b =>
      .bind (issues_expr c) fun c' S hc => .bind (issues_block b) fun b' T hb =>
        .pure (by simpa [Stmt.parts] using hc.append hb)
  | .break => .pure rfl
  | .for x a z b =>
      .bind (issues_expr a) fun a' S ha => .bind (issues_expr z) fun z' T hz =>
        .bind (issues_block b) fun b' U hb =>
          .pure (by simpa [Stmt.parts, add_assoc] using (ha.append hz).append hb)

theorem issues_block : ∀ ss : List Stmt,
    Issues (Stmt.withMapFactsList ss) fun ss' S => Owes (Stmt.partsList ss) (Stmt.partsList ss') S
  | [] => .pure rfl
  | s :: ss =>
      .bind (issues_stmt s) fun s' S hs => .bind (issues_block ss) fun ss' T hss =>
        .pure (by simpa [Stmt.partsList] using hs.append hss)

end

end SiteM

/-! ## The sites of a compiled function -/

/-- The sites in the code of a function are the numbers below its counter, each of them once. -/
def Function.Numbered (f : Function) : Prop :=
  f.sites.Perm ((List.range f.ctx.nextSite).map Site.mk)

/-- Code that was made of a function, given facts on its maps and lowered, is numbered. -/
theorem Function.numbered_of_lower {f : Typed.Function} {g g' : Function} {n : Nat}
    (hmade : Function.ofTyped f = .ok g) (hlower : g.withMapFacts.lower = (.ok n, g')) :
    g'.Numbered := by
  obtain ⟨-, haccounted⟩ := Function.accounted_of_lower hlower
  -- the counter that the generator left is where the sites of maps start
  obtain ⟨hle, howes⟩ := SiteM.issues_block g.body g.ctx g.withMapFacts.body g.withMapFacts.ctx rfl
  refine Multiset.coe_eq_coe.1 ?_
  calc (↑g'.sites : Multiset Site)
      = (due g.withMapFacts.parts).2 := by rw [haccounted.sites, due_eq]; rfl
    _ = (load g.parts).2 + Site.interval g.ctx.nextSite g.withMapFacts.ctx.nextSite := howes
    _ = Site.interval 0 g.withMapFacts.ctx.nextSite := by
          rw [Function.sites_of_ofTyped hmade, Site.interval_add (Nat.zero_le _) hle]
    _ = ↑((List.range g'.ctx.nextSite).map Site.mk) := by
          rw [Site.interval_zero, haccounted.nextSite]

/-- Placement decides for exactly the numbers below the counter, in this order. -/
theorem Function.Numbered.placements {f : Function} (h : f.Numbered) :
    f.placements.map Prod.fst = (List.range f.ctx.nextSite).map Site.mk := by
  have hascend : ((List.range f.ctx.nextSite).map Site.mk).Pairwise (· < ·) :=
    List.pairwise_map.2 List.pairwise_lt_range
  rw [Function.placements, List.map_map, Ascending.ofList_eq hascend fun s => h.mem_iff]
  exact List.map_id _

end Rivulet.Ir

namespace Rivulet.Compiled

open Ir (Site Function)

/-- **Allocation sites are numbered without gaps and without repetition.** In every function of
compiled code, the sites of the sequences that it creates, in closures or not, are the numbers below
the counter of the function, each of them exactly once. Placement decides for exactly these sites. -/
theorem sites_numbered {source : String} {form : Option Form} {c : Compiled} {m : Ir.Module}
    (hcompiled : ofSource source form = .ok c) (hc : c.module? = some m) :
    ∀ f ∈ m.functions,
      f.sites.Perm ((List.range f.ctx.nextSite).map Site.mk) ∧
      f.placements.map Prod.fst = (List.range f.ctx.nextSite).map Site.mk ∧
      f.placements.length = f.ctx.nextSite := by
  obtain ⟨p, m₁, n, -, hmade, hlower⟩ := exists_accepted_of_module hcompiled hc
  have hnumbered : ∀ f ∈ m.functions, f.Numbered := by
    intro f hf
    -- back from the lowered function to the checked one that it was made of
    have hlowered := Ir.Module.forall₂_of_lower (R := fun g f => ∃ k, g.lower = (.ok k, f))
      (fun g _ k f hg => ⟨k, hg⟩) hlower
    obtain ⟨g, hg, k, hk⟩ := Ir.mem_of_forall₂_right hlowered hf
    obtain ⟨g₁, hg₁, rfl⟩ := List.mem_map.1 hg
    obtain ⟨t, -, ht⟩ := Ir.mem_of_forall₂_right (Ir.Module.ofTyped_eq_ok_iff.1 hmade) hg₁
    exact Function.numbered_of_lower ht hk
  intro f hf
  have hplaced := (hnumbered f hf).placements
  refine ⟨hnumbered f hf, hplaced, ?_⟩
  simpa using congrArg List.length hplaced

set_option maxRecDepth 100000 in
/-- A map over a literal in a closure, and another literal behind it. The map comes last: its site has
the highest number. -/
theorem sites_numbered_closure :
    let source := "function f(n: int) -> [int] \x7b k := () -> [n] |> x -> x + n; return [n]; \x7d"
    ∃ c m, ofSource source none = .ok c ∧ c.module? = some m ∧
      (m.functions.map fun f => f.ctx.nextSite) = [3] ∧
      ∀ f ∈ m.functions,
        f.sites.Perm ((List.range f.ctx.nextSite).map Site.mk) ∧
        f.placements.map Prod.fst = (List.range f.ctx.nextSite).map Site.mk ∧
        f.placements.length = f.ctx.nextSite := by
  intro source
  have hcounters : ((ofSource source none).toOption.bind module?).map
      (fun m => m.functions.map fun f => f.ctx.nextSite) = some [3] := by
    decide +kernel
  cases hcompiled : ofSource source none with
  | error e =>
      rw [hcompiled] at hcounters
      cases hcounters
  | ok c =>
      rw [hcompiled] at hcounters
      obtain ⟨m, hc, hm⟩ := Option.map_eq_some_iff.1 hcounters
      exact ⟨c, m, rfl, hc, hm, sites_numbered hcompiled hc⟩

end Rivulet.Compiled
