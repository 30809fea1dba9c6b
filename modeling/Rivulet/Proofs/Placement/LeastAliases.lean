import Rivulet.Proofs.Code.Nesting
import Rivulet.Proofs.Placement.Aliases

set_option autoImplicit false

/-! # The least aliases

A local may refer to an allocation site exactly if a chain of bindings copies a slice from that site
into it (`Aliases.Flows`). This file shows that the analysis finds these aliases and no others, and
that it does not matter how it goes about it.

The analysis is a loop: a round visits the bindings of a function one after another, adds to each
target the sites of its value, and notes in a flag whether anything was added. The loop ends with the
first round that adds nothing (`Aliases.Settles`). There is no bound on the rounds in that
description, so the loop might run forever; `Aliases.settles_close` shows that it does not, whatever
list of bindings a round goes over. A round may therefore visit a binding several times. The one that
goes through the code block by block (`Stmt.visitsBlock`) does: it looks for closures in a block and
in every block inside it, and meets the inner ones once for each.

What the loop ends with depends on the set of bindings only (`Aliases.Settles.mem_iff`): a chain of
copies is found in whatever order its links are visited, and nothing is added that has no chain. -/

namespace Rivulet.Ir

/-! ## Visiting a block -/

mutual

/-- What is visited for the closures in an expression, the outer ones first. The closures in the body
of a closure are met twice, in the visit of the body and by themselves. -/
def Expr.visitsClosures : Expr → List Binding
  | .const _ _ | .local _ _ | .function _ _ | .builtin _ _ => []
  | .unary _ e _ | .len e _ | .alloc _ e _ _ => e.visitsClosures
  | .binary _ l r _ _ _ => l.visitsClosures ++ r.visitsClosures
  | .call f as _ => f.visitsClosures ++ Expr.visitsClosuresList as
  | .index s p _ _ => s.visitsClosures ++ p.visitsClosures
  | .slice es _ _ => Expr.visitsClosuresList es
  | .closure _ _ _ b _ =>
      (Stmt.visitsList b ++ Stmt.visitsClosuresList b) ++ Stmt.visitsClosuresList b
termination_by structural e => e

/-- What is visited for the closures in several expressions. -/
def Expr.visitsClosuresList : List Expr → List Binding
  | [] => []
  | e :: es => e.visitsClosures ++ Expr.visitsClosuresList es
termination_by structural es => es

/-- What is visited for the closures in a statement. -/
def Stmt.visitsClosures : Stmt → List Binding
  | .bind _ e | .assign _ e | .expr e => e.visitsClosures
  | .store s p v _ => s.visitsClosures ++ p.visitsClosures ++ v.visitsClosures
  | .return es => Expr.visitsClosuresList es
  | .if c t e => c.visitsClosures ++ Stmt.visitsClosuresList t ++ Stmt.visitsClosuresList e
  | .while c b => c.visitsClosures ++ Stmt.visitsClosuresList b
  | .break => []
  | .for _ a z b => a.visitsClosures ++ z.visitsClosures ++ Stmt.visitsClosuresList b
termination_by structural s => s

/-- What is visited for the closures in several statements. -/
def Stmt.visitsClosuresList : List Stmt → List Binding
  | [] => []
  | s :: ss => s.visitsClosures ++ Stmt.visitsClosuresList ss
termination_by structural ss => ss

/-- What is visited for a statement itself and for the blocks in it. -/
def Stmt.visits : Stmt → List Binding
  | .bind x e | .assign x e => [⟨x, e⟩]
  | .if _ t e =>
      (Stmt.visitsList t ++ Stmt.visitsClosuresList t)
        ++ (Stmt.visitsList e ++ Stmt.visitsClosuresList e)
  | .while _ b | .for _ _ _ b => Stmt.visitsList b ++ Stmt.visitsClosuresList b
  | .store _ _ _ _ | .expr _ | .return _ | .break => []
termination_by structural s => s

/-- What is visited for several statements and for the blocks in them. -/
def Stmt.visitsList : List Stmt → List Binding
  | [] => []
  | s :: ss => s.visits ++ Stmt.visitsList ss
termination_by structural ss => ss

end

/-- The bindings in the order in which a round visits them: those of the statements of the block with
the blocks in them, then those of all closures of the block. -/
def Stmt.visitsBlock (ss : List Stmt) : List Binding :=
  Stmt.visitsList ss ++ Stmt.visitsClosuresList ss

section Visits

variable {b : Binding}

mutual

theorem Expr.mem_visitsClosures_iff : ∀ e : Expr, b ∈ e.visitsClosures ↔ b ∈ e.bindings
  | .const _ _ | .local _ _ | .function _ _ | .builtin _ _ => Iff.rfl
  | .unary _ e _ | .len e _ | .alloc _ e _ _ => Expr.mem_visitsClosures_iff e
  | .binary _ l r _ _ _ | .index l r _ _ => by
      simp only [Expr.visitsClosures, Expr.bindings, List.mem_append,
        Expr.mem_visitsClosures_iff l, Expr.mem_visitsClosures_iff r]
  | .call f as _ => by
      simp only [Expr.visitsClosures, Expr.bindings, List.mem_append,
        Expr.mem_visitsClosures_iff f, Expr.mem_visitsClosuresList_iff as]
  | .slice es _ _ => Expr.mem_visitsClosuresList_iff es
  | .closure _ _ _ body _ => by
      have hbody := Stmt.mem_visitsList_or_iff body
      simp only [Expr.visitsClosures, Expr.bindings, List.mem_append]
      tauto

theorem Expr.mem_visitsClosuresList_iff : ∀ es : List Expr,
    b ∈ Expr.visitsClosuresList es ↔ b ∈ Expr.bindingsList es
  | [] => Iff.rfl
  | e :: es => by
      simp only [Expr.visitsClosuresList, Expr.bindingsList, List.mem_append,
        Expr.mem_visitsClosures_iff e, Expr.mem_visitsClosuresList_iff es]

theorem Stmt.mem_visits_or_iff : ∀ s : Stmt,
    b ∈ s.visits ∨ b ∈ s.visitsClosures ↔ b ∈ s.bindings
  | .bind _ e | .assign _ e => by
      simp only [Stmt.visits, Stmt.visitsClosures, Stmt.bindings, List.mem_cons, List.not_mem_nil,
        or_false, Expr.mem_visitsClosures_iff e]
  | .expr e => by
      simp only [Stmt.visits, Stmt.visitsClosures, Stmt.bindings, List.not_mem_nil, false_or,
        Expr.mem_visitsClosures_iff e]
  | .store s p v _ => by
      simp only [Stmt.visits, Stmt.visitsClosures, Stmt.bindings, List.not_mem_nil, false_or,
        List.mem_append, Expr.mem_visitsClosures_iff s, Expr.mem_visitsClosures_iff p,
        Expr.mem_visitsClosures_iff v]
  | .return es => by
      simp only [Stmt.visits, Stmt.visitsClosures, Stmt.bindings, List.not_mem_nil, false_or,
        Expr.mem_visitsClosuresList_iff es]
  | .if c t e => by
      have ht := Stmt.mem_visitsList_or_iff t
      have he := Stmt.mem_visitsList_or_iff e
      simp only [Stmt.visits, Stmt.visitsClosures, Stmt.bindings, List.mem_append,
        Expr.mem_visitsClosures_iff c]
      tauto
  | .while c d => by
      have hd := Stmt.mem_visitsList_or_iff d
      simp only [Stmt.visits, Stmt.visitsClosures, Stmt.bindings, List.mem_append,
        Expr.mem_visitsClosures_iff c]
      tauto
  | .break => by simp [Stmt.visits, Stmt.visitsClosures, Stmt.bindings]
  | .for _ a z d => by
      have hd := Stmt.mem_visitsList_or_iff d
      simp only [Stmt.visits, Stmt.visitsClosures, Stmt.bindings, List.mem_append,
        Expr.mem_visitsClosures_iff a, Expr.mem_visitsClosures_iff z]
      tauto

theorem Stmt.mem_visitsList_or_iff : ∀ ss : List Stmt,
    b ∈ Stmt.visitsList ss ∨ b ∈ Stmt.visitsClosuresList ss ↔ b ∈ Stmt.bindingsList ss
  | [] => by simp [Stmt.visitsList, Stmt.visitsClosuresList, Stmt.bindingsList]
  | s :: ss => by
      have hs := Stmt.mem_visits_or_iff s
      have hss := Stmt.mem_visitsList_or_iff ss
      simp only [Stmt.visitsList, Stmt.visitsClosuresList, Stmt.bindingsList, List.mem_append]
      tauto

end

/-- A round that goes through the code visits every binding in it and nothing else. -/
theorem Stmt.mem_visitsBlock_iff {x : LocalId} {v : Expr} (ss : List Stmt) :
    ⟨x, v⟩ ∈ Stmt.visitsBlock ss ↔ Stmt.Binds ss x v := by
  rw [Stmt.visitsBlock, List.mem_append, Stmt.mem_visitsList_or_iff, Stmt.mem_bindingsList_iff]

end Visits

namespace Aliases

variable {visits : List Binding} {al al' : Aliases} {σ : Site} {x : LocalId}

/-! ## The loop -/

/-- Visit a binding, and raise the flag if that adds something. -/
def visit (state : Aliases × Bool) (b : Binding) : Aliases × Bool :=
  let next := state.1.addNew b.target (state.1.ofExpr b.value)
  (next, state.2 || next.length != state.1.length)

/-- A round: visit one binding after another, with the flag down at first. -/
def round (visits : List Binding) (al : Aliases) : Aliases × Bool :=
  visits.foldl visit (al, false)

/-- Rounds until the flag stays down lead from some aliases to others. -/
inductive Settles (visits : List Binding) : Aliases → Aliases → Prop
  | done {al al' : Aliases} (h : round visits al = (al', false)) : Settles visits al al'
  | again {al next al' : Aliases} (h : round visits al = (next, true))
      (rest : Settles visits next al') : Settles visits al al'

/-- The flag tells whether the aliases have grown since it was put down. -/
theorem foldl_visit (visits : List Binding) (al : Aliases) (flag : Bool) :
    visits.foldl visit (al, flag)
      = (step visits al, flag || (step visits al).length != al.length) := by
  induction visits generalizing al flag with
  | nil => simp [step]
  | cons b visits ih =>
      have hgrows := (suffix_addNew al b.target (al.ofExpr b.value)).length_le
      have hrest := (suffix_step visits (al.addNew b.target (al.ofExpr b.value))).length_le
      rw [List.foldl_cons, visit, ih, step_cons, Bool.or_assoc]
      congr 2
      rw [Bool.eq_iff_iff]
      simp only [Bool.or_eq_true, bne_iff_ne, ne_eq]
      omega

theorem round_eq (visits : List Binding) (al : Aliases) :
    round visits al = (step visits al, (step visits al).length != al.length) := by
  rw [round, foldl_visit, Bool.false_or]

/-- The flag stays down exactly in a round that leaves everything as it was. -/
theorem round_eq_false_iff : round visits al = (al', false) ↔ al' = al ∧ step visits al = al := by
  rw [round_eq, Prod.mk.injEq, bne_eq_false_iff_eq]
  constructor
  · rintro ⟨rfl, hlength⟩
    have hstep : step visits al = al := ((suffix_step visits al).eq_of_length hlength.symm).symm
    exact ⟨hstep, hstep⟩
  · rintro ⟨rfl, hstep⟩
    exact ⟨hstep, by rw [hstep]⟩

/-! ## The loop ends -/

theorem addNew_eq_self {sites : List Site} (h : ∀ σ ∈ sites, (x, σ) ∈ al) :
    al.addNew x sites = al := by
  unfold addNew
  induction sites with
  | nil => rfl
  | cons σ sites ih =>
      rw [List.foldl_cons, if_pos (h σ (by simp))]
      exact ih fun τ hτ => h τ (by simp [hτ])

/-- A round over bindings under which the aliases are closed adds nothing. -/
theorem Closed.step_eq (h : Closed visits al) : step visits al = al := by
  induction visits with
  | nil => rfl
  | cons b visits ih =>
      rw [step_cons, addNew_eq_self (h b (by simp))]
      exact ih fun c hc => h c (by simp [hc])

/-- Bounded rounds that end in aliases no round changes are rounds of the loop. -/
theorem settles_closeUpTo (visits : List Binding) (n : Nat) (al : Aliases)
    (h : step visits (closeUpTo visits n al) = closeUpTo visits n al) :
    Settles visits al (closeUpTo visits n al) := by
  induction n generalizing al with
  | zero => exact .done (round_eq_false_iff.2 ⟨rfl, h⟩)
  | succ n ih =>
      unfold closeUpTo at h ⊢
      dsimp only at h ⊢
      split at h <;> rename_i hlength
      · rw [if_pos hlength]
        exact .done (round_eq_false_iff.2 ⟨rfl, h⟩)
      · rw [if_neg hlength]
        refine .again ?_ (ih (step visits al) h)
        rw [round_eq, Prod.mk.injEq, bne_iff_ne]
        exact ⟨rfl, hlength⟩

/-- **The loop ends**, and the bound of `Aliases.close` never cuts it short. -/
theorem settles_close (visits : List Binding) : Settles visits [] (close visits) :=
  settles_closeUpTo visits _ [] (closed_close visits).step_eq

theorem Settles.unique (h : Settles visits al al') {al'' : Aliases} (h' : Settles visits al al'') :
    al' = al'' := by
  induction h with
  | done h =>
      cases h' with
      | done h' => exact congrArg Prod.fst (h.symm.trans h')
      | again h' _ => cases h.symm.trans h'
  | again h _ ih =>
      cases h' with
      | done h' => cases h.symm.trans h'
      | again h' rest =>
          cases h.symm.trans h'
          exact ih rest

/-! ## What the loop ends with -/

/-- A binding in a body gives a local a slice that is created there, at this site. -/
def Makes (body : List Stmt) (σ : Site) (x : LocalId) : Prop :=
  (∃ t n i, Stmt.Binds body x (.alloc t n σ i)) ∨ ∃ es i, Stmt.Binds body x (.slice es σ i)

/-- A binding in a body copies one local into another. -/
def Copies (body : List Stmt) (y x : LocalId) : Prop := ∃ i, Stmt.Binds body x (.local y i)

/-- A chain of bindings in a body that copies a slice from its site through locals into a local. -/
inductive Flows (body : List Stmt) (σ : Site) : LocalId → Prop
  | made {x : LocalId} (h : Makes body σ x) : Flows body σ x
  | copied {x y : LocalId} (h : Copies body y x) (hy : Flows body σ y) : Flows body σ x

/-- Chains have to do with what is made and copied, not with where that stands. -/
theorem Flows.congr {body body' : List Stmt} (hmakes : ∀ σ x, Makes body σ x → Makes body' σ x)
    (hcopies : ∀ y x, Copies body y x → Copies body' y x) (h : Flows body σ x) :
    Flows body' σ x := by
  induction h with
  | made h => exact .made (hmakes σ _ h)
  | copied h _ ih => exact .copied (hcopies _ _ h) ih

/-- **The aliases are the chains**, for every way to visit the bindings of a body. -/
theorem Settles.mem_iff {body : List Stmt}
    (hvisits : ∀ x v, ⟨x, v⟩ ∈ visits ↔ Stmt.Binds body x v) (h : Settles visits [] al) :
    σ ∈ al.ofLocal x ↔ Flows body σ x := by
  obtain rfl : al = close visits := h.unique (settles_close visits)
  rw [mem_ofLocal]
  constructor
  · refine forall_mem_close (P := fun p => Flows body p.2 p.1) ?_ (x, σ)
    rintro al hal ⟨y, v⟩ hb τ hτ
    have hbinds : Stmt.Binds body y v := (hvisits y v).1 hb
    cases v with
    | alloc t n s i =>
        obtain rfl := List.mem_singleton.1 hτ
        exact .made (.inl ⟨t, n, i, hbinds⟩)
    | slice es s i =>
        obtain rfl := List.mem_singleton.1 hτ
        exact .made (.inr ⟨es, i, hbinds⟩)
    | «local» z i => exact .copied ⟨i, hbinds⟩ (hal _ (mem_ofLocal.1 hτ))
    | _ => simp [ofExpr] at hτ
  · intro hflows
    have hclosed := closed_close visits
    induction hflows with
    | made h =>
        rcases h with ⟨t, n, i, hbinds⟩ | ⟨es, i, hbinds⟩
        · exact hclosed _ ((hvisits _ _).2 hbinds) σ (by simp [ofExpr])
        · exact hclosed _ ((hvisits _ _).2 hbinds) σ (by simp [ofExpr])
    | copied h _ ih =>
        obtain ⟨i, hbinds⟩ := h
        exact hclosed _ ((hvisits _ _).2 hbinds) σ (mem_ofLocal.2 ih)

/-- The loop over the code of a body finds the chains in it. -/
theorem Settles.mem_iff_of_visitsBlock {body : List Stmt}
    (h : Settles (Stmt.visitsBlock body) [] al) : σ ∈ al.ofLocal x ↔ Flows body σ x :=
  h.mem_iff fun _ _ => Stmt.mem_visitsBlock_iff body

/-- **The analysis ends with the least aliases**, on every body. The loop over the code ends, and the
sites of a local are then those from which a chain of bindings leads into it; the same holds of
`Aliases.close`, and of a loop that visits the same bindings in any other order and number. So the
order of the statements is of no account, nor is anything else about the code but what its bindings
make and copy. -/
theorem close_least (body : List Stmt) :
    (∃ al, Settles (Stmt.visitsBlock body) [] al)
    ∧ (∀ al, Settles (Stmt.visitsBlock body) [] al → ∀ x σ, σ ∈ al.ofLocal x ↔ Flows body σ x)
    ∧ Settles (Stmt.bindingsList body) [] (close (Stmt.bindingsList body))
    ∧ (∀ x σ, σ ∈ (close (Stmt.bindingsList body)).ofLocal x ↔ Flows body σ x)
    ∧ (∀ visits : List Binding, (∀ x v, ⟨x, v⟩ ∈ visits ↔ Stmt.Binds body x v) →
        (∃ al, Settles visits [] al)
          ∧ ∀ al, Settles visits [] al → ∀ x σ, σ ∈ al.ofLocal x ↔ Flows body σ x)
    ∧ (∀ (body' : List Stmt) (al al' : Aliases), body'.Perm body →
        Settles (Stmt.visitsBlock body) [] al → Settles (Stmt.visitsBlock body') [] al' →
        ∀ x σ, σ ∈ al'.ofLocal x ↔ σ ∈ al.ofLocal x)
    ∧ ∀ (body' : List Stmt) (al al' : Aliases), (∀ σ x, Makes body' σ x ↔ Makes body σ x) →
        (∀ y x, Copies body' y x ↔ Copies body y x) →
        Settles (Stmt.visitsBlock body) [] al → Settles (Stmt.visitsBlock body') [] al' →
        ∀ x σ, σ ∈ al'.ofLocal x ↔ σ ∈ al.ofLocal x := by
  refine ⟨⟨_, settles_close _⟩, fun al hal x σ => hal.mem_iff_of_visitsBlock, settles_close _,
    fun x σ => ?_, fun visits hvisits => ?_, fun body' al al' hperm hal hal' x σ => ?_,
    fun body' al al' hmakes hcopies hal hal' x σ => ?_⟩
  · exact (settles_close _).mem_iff fun x v => Stmt.mem_bindingsList_iff body
  · exact ⟨⟨_, settles_close visits⟩, fun al hal x σ => hal.mem_iff hvisits⟩
  · have hbinds : ∀ x v, ⟨x, v⟩ ∈ Stmt.visitsBlock body' ↔ Stmt.Binds body x v := fun x v =>
      (Stmt.mem_visitsBlock_iff body').trans
        ⟨fun h => h.mono hperm.subset, fun h => h.mono hperm.symm.subset⟩
    rw [hal.mem_iff_of_visitsBlock, hal'.mem_iff hbinds]
  · rw [hal.mem_iff_of_visitsBlock, hal'.mem_iff_of_visitsBlock]
    constructor
    · exact Flows.congr (fun σ x => (hmakes σ x).1) fun y x => (hcopies y x).1
    · exact Flows.congr (fun σ x => (hmakes σ x).2) fun y x => (hcopies y x).2

end Aliases

end Rivulet.Ir
