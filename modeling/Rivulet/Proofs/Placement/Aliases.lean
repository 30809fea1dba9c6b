import Rivulet.Ir.Placement
import Mathlib.Data.Finset.Card

set_option autoImplicit false

/-! # Aliases are found in time

`Aliases.close` makes rounds over the bindings until nothing changes, but at most one more than there
are bindings. That is enough: what it gives is closed under the bindings (`Aliases.closed_close`).

Counting all pairs of a local and a site would give a far larger bound. The point is that sites do not
mix: whether a site is added to a local in a round depends only on which locals it has been added to
so far. So each site is followed by itself. As long as its set of locals grows, every round adds one
of the locals that are bound, and once it has not grown, it never grows again. -/

namespace Rivulet.Ir

namespace Aliases

variable {bs : List Binding} {al al' : Aliases} {σ : Site}

/-- Whatever the value of a binding may be, its local may be too. -/
def Closed (bs : List Binding) (al : Aliases) : Prop :=
  ∀ b ∈ bs, ∀ σ ∈ al.ofExpr b.value, (b.target, σ) ∈ al

theorem mem_ofLocal {x : LocalId} : σ ∈ al.ofLocal x ↔ (x, σ) ∈ al := by
  simp [ofLocal, List.mem_filterMap]

/-! ## One round -/

theorem mem_addNew {x : LocalId} {sites : List Site} {p : LocalId × Site} :
    p ∈ al.addNew x sites ↔ p ∈ al ∨ p.1 = x ∧ p.2 ∈ sites := by
  unfold addNew
  induction sites generalizing al with
  | nil => simp
  | cons σ sites ih =>
      rw [List.foldl_cons, ih]
      obtain ⟨y, τ⟩ := p
      split <;> grind

theorem suffix_addNew (al : Aliases) (x : LocalId) (sites : List Site) :
    al <:+ al.addNew x sites := by
  unfold addNew
  induction sites generalizing al with
  | nil => exact List.suffix_refl al
  | cons σ sites ih =>
      rw [List.foldl_cons]
      split
      · exact ih al
      · exact (List.suffix_cons _ al).trans (ih _)

theorem suffix_step (bs : List Binding) (al : Aliases) : al <:+ step bs al := by
  unfold step
  induction bs generalizing al with
  | nil => exact List.suffix_refl al
  | cons b bs ih =>
      rw [List.foldl_cons]
      exact (suffix_addNew al _ _).trans (ih _)

theorem step_cons (b : Binding) (bs : List Binding) (al : Aliases) :
    step (b :: bs) al = step bs (al.addNew b.target (al.ofExpr b.value)) := rfl

/-- More aliases of locals are more aliases of expressions. -/
theorem ofExpr_mono (h : ∀ x, (x, σ) ∈ al → (x, σ) ∈ al') {e : Expr} (hσ : σ ∈ al.ofExpr e) :
    σ ∈ al'.ofExpr e := by
  cases e with
  | «local» x i => exact mem_ofLocal.2 (h x (mem_ofLocal.1 hσ))
  | alloc t n s i => exact hσ
  | slice es s i => exact hσ
  | _ => simp [ofExpr] at hσ

/-- What a round does to a site depends on the aliases of that site only. -/
theorem mem_step_mono (h : ∀ x, (x, σ) ∈ al → (x, σ) ∈ al') {x : LocalId}
    (hx : (x, σ) ∈ step bs al) : (x, σ) ∈ step bs al' := by
  induction bs generalizing al al' with
  | nil => exact h x hx
  | cons b bs ih =>
      rw [step_cons] at hx ⊢
      refine ih (fun y hy => ?_) hx
      rcases mem_addNew.1 hy with hy | ⟨rfl, hσ⟩
      · exact mem_addNew.2 (.inl (h y hy))
      · exact mem_addNew.2 (.inr ⟨rfl, ofExpr_mono h hσ⟩)

/-- What a round adds is bound somewhere. -/
theorem mem_targets_of_mem_step {x : LocalId} (hx : (x, σ) ∈ step bs al) :
    (x, σ) ∈ al ∨ x ∈ bs.map Binding.target := by
  induction bs generalizing al with
  | nil => exact .inl hx
  | cons b bs ih =>
      rw [step_cons] at hx
      rw [List.map_cons, List.mem_cons]
      rcases ih hx with hal | hbs
      · rcases mem_addNew.1 hal with hal | ⟨rfl, -⟩
        · exact .inl hal
        · exact .inr (.inl rfl)
      · exact .inr (.inr hbs)

/-- A round after which nothing is new shows that the aliases are closed. -/
theorem closed_of_step_subset (h : ∀ p ∈ step bs al, p ∈ al) : Closed bs al := by
  have key : ∀ {bs : List Binding} {cur : Aliases}, (∀ p ∈ al, p ∈ cur) → ∀ b ∈ bs,
      ∀ σ ∈ al.ofExpr b.value, (b.target, σ) ∈ step bs cur := by
    intro bs
    induction bs with
    | nil => simp
    | cons c bs ih =>
        intro cur hcur b hb σ hσ
        rw [step_cons]
        rcases List.mem_cons.1 hb with rfl | hb
        · refine (suffix_step bs _).subset (mem_addNew.2 (.inr ⟨rfl, ?_⟩))
          exact ofExpr_mono (fun x hx => hcur _ hx) hσ
        · exact ih (fun p hp => mem_addNew.2 (.inl (hcur p hp))) b hb σ hσ
  exact fun b hb σ hσ => h _ (key (fun p hp => hp) b hb σ hσ)

/-! ## All rounds -/

/-- The locals that may refer to a site. -/
def holders (al : Aliases) (σ : Site) : Finset LocalId :=
  (al.filterMap fun p => if p.2 = σ then some p.1 else none).toFinset

@[simp] theorem mem_holders {x : LocalId} : x ∈ al.holders σ ↔ (x, σ) ∈ al := by
  simp [holders, List.mem_filterMap]

theorem holders_subset_step (bs : List Binding) (al : Aliases) (σ : Site) :
    al.holders σ ⊆ (step bs al).holders σ := by
  intro x hx
  rw [mem_holders] at hx ⊢
  exact (suffix_step bs al).subset hx

/-- The aliases after so many rounds. -/
def rounds (bs : List Binding) : Nat → Aliases
  | 0 => []
  | n + 1 => step bs (rounds bs n)

theorem holders_rounds_subset (bs : List Binding) (n : Nat) (σ : Site) :
    (rounds bs n).holders σ ⊆ (bs.map Binding.target).toFinset := by
  intro x hx
  rw [mem_holders] at hx
  rw [List.mem_toFinset]
  induction n with
  | zero => cases hx
  | succ n ih =>
      rcases mem_targets_of_mem_step hx with hx | hx
      · exact ih hx
      · exact hx

/-- A site that got no new local in one round gets none in the next. -/
theorem holders_stable {n : Nat}
    (h : (rounds bs (n + 1)).holders σ ⊆ (rounds bs n).holders σ) :
    (rounds bs (n + 2)).holders σ ⊆ (rounds bs (n + 1)).holders σ := by
  intro x hx
  rw [mem_holders] at hx ⊢
  exact mem_step_mono (fun y hy => mem_holders.1 (h (mem_holders.2 hy))) hx

/-- Up to the round in which a site gets no new local, it gets one in every round. -/
theorem holders_grow (bs : List Binding) (σ : Site) (n : Nat) :
    (rounds bs (n + 1)).holders σ ⊆ (rounds bs n).holders σ ∨
      n < ((rounds bs (n + 1)).holders σ).card := by
  have hgrows : ∀ k, ¬ (rounds bs (k + 1)).holders σ ⊆ (rounds bs k).holders σ →
      ((rounds bs k).holders σ).card < ((rounds bs (k + 1)).holders σ).card := fun k hnew =>
    Finset.card_lt_card ⟨holders_subset_step bs (rounds bs k) σ, hnew⟩
  induction n with
  | zero =>
      by_cases hold : (rounds bs 1).holders σ ⊆ (rounds bs 0).holders σ
      · exact .inl hold
      · have := hgrows 0 hold
        exact .inr (by omega)
  | succ n ih =>
      by_cases hold : (rounds bs (n + 2)).holders σ ⊆ (rounds bs (n + 1)).holders σ
      · exact .inl hold
      · rcases ih with hstable | hcard
        · exact absurd (holders_stable hstable) hold
        · have := hgrows (n + 1) hold
          exact .inr (by omega)

/-- After as many rounds as there are bindings, nothing is new any more. -/
theorem step_rounds_subset (bs : List Binding) : ∀ p ∈ step bs (rounds bs bs.length),
    p ∈ rounds bs bs.length := by
  rintro ⟨x, σ⟩ hp
  have hcard : ((rounds bs (bs.length + 1)).holders σ).card ≤ bs.length := calc
    _ ≤ ((bs.map Binding.target).toFinset).card :=
        Finset.card_le_card (holders_rounds_subset bs _ σ)
    _ ≤ (bs.map Binding.target).length := List.toFinset_card_le _
    _ = bs.length := List.length_map _
  rcases holders_grow bs σ bs.length with hsub | hlt
  · exact mem_holders.1 (hsub (mem_holders.2 hp))
  · omega

/-- Rounds that are made until nothing changes: either something stopped them, or all were made. -/
theorem closeUpTo_cases (bs : List Binding) : ∀ n k : Nat,
    step bs (closeUpTo bs n (rounds bs k)) = closeUpTo bs n (rounds bs k) ∨
      closeUpTo bs n (rounds bs k) = rounds bs (k + n)
  | 0, k => .inr rfl
  | n + 1, k => by
      unfold closeUpTo
      dsimp only
      split
      · rename_i hlength
        exact .inl ((suffix_step bs (rounds bs k)).eq_of_length hlength.symm).symm
      · rcases closeUpTo_cases bs n (k + 1) with h | h
        · exact .inl h
        · refine .inr (h.trans ?_)
          rw [Nat.add_right_comm k 1 n, Nat.add_assoc]

/-- **The aliases of a piece of code are closed under its bindings.** -/
theorem closed_close (bs : List Binding) : Closed bs (close bs) := by
  refine closed_of_step_subset fun p hp => ?_
  rcases closeUpTo_cases bs (bs.length + 1) 0 with h | h
  · rw [show step bs (close bs) = close bs from h] at hp
    exact hp
  · rw [show close bs = rounds bs (0 + (bs.length + 1)) from h, Nat.zero_add] at hp ⊢
    exact mem_step_mono (fun x hx => step_rounds_subset bs (x, p.2) hx) hp

/-! ## Nothing else is found -/

/-- A property of pairs that every binding passes on is passed on by a round. -/
theorem forall_mem_step {P : LocalId × Site → Prop}
    (hbind : ∀ al : Aliases, (∀ p ∈ al, P p) → ∀ b ∈ bs, ∀ σ ∈ al.ofExpr b.value, P (b.target, σ))
    (hal : ∀ p ∈ al, P p) : ∀ p ∈ step bs al, P p := by
  induction bs generalizing al with
  | nil => exact hal
  | cons b bs ih =>
      rw [step_cons]
      refine ih (fun al hal c hc => hbind al hal c (List.mem_cons_of_mem b hc)) ?_
      rintro ⟨y, τ⟩ hp
      rcases mem_addNew.1 hp with hp | ⟨rfl, hτ⟩
      · exact hal _ hp
      · exact hbind al hal b List.mem_cons_self τ hτ

/-- A property of pairs that every binding passes on holds of all aliases that are found. -/
theorem forall_mem_close {P : LocalId × Site → Prop}
    (hbind : ∀ al : Aliases, (∀ p ∈ al, P p) → ∀ b ∈ bs, ∀ σ ∈ al.ofExpr b.value, P (b.target, σ)) :
    ∀ p ∈ close bs, P p := by
  have hrounds : ∀ (n : Nat) (al : Aliases), (∀ p ∈ al, P p) → ∀ p ∈ closeUpTo bs n al, P p := by
    intro n
    induction n with
    | zero => exact fun al hal => hal
    | succ n ih =>
        intro al hal
        unfold closeUpTo
        dsimp only
        split
        · exact hal
        · exact ih _ (forall_mem_step hbind hal)
  exact hrounds (bs.length + 1) [] (by simp)

/-- A site of which an alias is found is the site of a value that is bound. -/
theorem exists_binding_of_mem_close {x : LocalId} (h : (x, σ) ∈ close bs) :
    ∃ b ∈ bs, b.value.site? = some σ := by
  refine forall_mem_close (P := fun p => ∃ b ∈ bs, b.value.site? = some p.2) ?_ (x, σ) h
  intro al hal b hb τ hτ
  cases hv : b.value with
  | alloc t n s i | slice es s i =>
      rw [hv] at hτ
      obtain rfl := List.mem_singleton.1 hτ
      exact ⟨b, hb, by rw [hv]; rfl⟩
  | «local» z i =>
      rw [hv] at hτ
      exact hal (z, τ) (mem_ofLocal.1 hτ)
  | _ => rw [hv] at hτ; simp [ofExpr] at hτ

end Aliases

end Rivulet.Ir
