import Rivulet.Proofs.Lowering.MapLoop

set_option autoImplicit false

/-! # Spilling

An expression that is evaluated before hoisted statements is spilled, unless it is stable. Either way
its value is settled (`spillBefore_pinned`). For a list of expressions this happens again and again:
after every expression of the list, some of the expressions before it are settled, and the others
still wait to be evaluated (`Staged`). Of those that wait, only the first may have hoisted anything,
since everything before a hoisted statement is settled. -/

namespace Rivulet.Machine

open Ir Lowering

variable {sigs : Validate.Signatures} {m m' : Engine} {ctx : Context} {st st₁ st₂ st' : State}
  {temps temps' : Set Nat} {later h : List Stmt} {e d d' : Expr}

/-! ## Stable expressions -/

/-- What is stable is settled: the locals of the program are no temporaries. -/
theorem pin_of_isStable (hdecl : ∀ x, ctx.Knows x → ctx.isTemp x = false)
    (hctx : ctx.AddsTemps st.ctx) (hd : isStable st.ctx d = true) :
    Expr.Pin ctx.locals.size ∅ d := by
  cases d with
  | const _ _ | function _ _ | builtin _ _ => trivial
  | «local» x i =>
      refine ⟨?_, Set.notMem_empty _⟩
      by_contra hlt
      have hknown : ctx.Knows x := by simpa [Context.Knows] using hlt
      simp only [isStable, hctx.isTemp_eq hknown, hdecl x hknown] at hd
      cases hd
  | _ => simp [isStable] at hd

/-- What is settled in one of the temporaries so far is stable. -/
theorem isStable_of_pin (hctx : ctx.AddsTemps st.ctx)
    (hd : Expr.Pin ctx.locals.size (Set.Iio st.size)ᶜ d) : isStable st.ctx d = true := by
  cases d with
  | const _ _ | function _ _ | builtin _ _ => rfl
  | «local» x i =>
      obtain ⟨hbound, hx⟩ := hd
      simp only [Set.mem_compl_iff, Set.mem_Iio, not_not] at hx
      exact hctx.temp x (by simpa [Context.Knows] using hbound) hx
  | _ => exact hd.elim

/-- If an expression is a local, its number is below `k`. -/
def Expr.LocalBelow (k : Nat) (d : Expr) : Prop := ∀ x i, d = .local x i → x.index < k

theorem Expr.LocalBelow.mono {k k' : Nat} (h : Expr.LocalBelow k d) (hk : k ≤ k') :
    Expr.LocalBelow k' d :=
  fun x i hd => (h x i hd).trans_le hk

theorem Expr.Pin.of_localBelow {bound k : Nat} (hd : Expr.Pin bound ∅ d)
    (hk : Expr.LocalBelow k d) : Expr.Pin bound (Set.Iio k)ᶜ d := by
  cases d with
  | const _ _ | function _ _ | builtin _ _ => trivial
  | «local» x i => exact ⟨hd.1, by simpa using hk x i rfl⟩
  | _ => exact hd.elim

/-- What is pinned by all temporaries but those of a set is a local of the set, if it is one at all. So
the set may grow. -/
theorem Expr.Pin.within {bound : Nat} {S T : Set Nat} (hd : Expr.Pin bound Sᶜ d) (h : S ⊆ T) :
    Expr.Pin bound Tᶜ d :=
  hd.mono (Set.compl_subset_compl.2 h)

/-- The temporaries of a step are neither those before it nor those behind it. -/
theorem step_subset_compl (a b c : Nat) : Set.Ico a b ⊆ (Set.Iio a ∪ Set.Ico b c)ᶜ := by
  intro i hi hi'
  simp only [Set.mem_union, Set.mem_Iio, Set.mem_Ico] at hi hi'
  omega

/-! ## One expression -/

/-- What lowering makes of an expression: it is simulated, with new temporaries only. -/
structure ExprLowered (sigs : Validate.Signatures) (bound : Nat) (m m' : Engine) (st st' : State)
    (e : Expr) (h : List Stmt) (d : Expr) : Prop where
  simulates : Simulates sigs bound m m' (Set.Ico st.size st'.size) [e] h [d]
  below : Expr.LocalBelow st'.size d

/-- An expression that comes before hoisted statements is settled by spilling, in a temporary that
was there before or in the new one. -/
theorem spillBefore_pinned (hdecl : ∀ x, ctx.Knows x → ctx.isTemp x = false)
    (hctx : ctx.AddsTemps st.ctx) (hsim : Simulates sigs ctx.locals.size m m' temps [e] h [d])
    {k : Nat} (hk : Expr.LocalBelow k d) (hlater : later ≠ []) {s : List Stmt}
    (hl : Lowers (spillBefore later d) st (s, d') st') :
    Pinned sigs ctx.locals.size m m' (temps ∪ Set.Ico st.size st'.size) [e] (h ++ s) [d'] ∧
      Expr.Pin ctx.locals.size (Set.Iio k ∪ Set.Ico st.size st'.size)ᶜ d' := by
  rcases spillBefore_inv hl with ⟨rfl, rfl, rfl, hempty | hstable⟩ | ⟨x, rfl, rfl, hx, hsize, -, -⟩
  · exact absurd hempty hlater
  · have hpin := pin_of_isStable hdecl hctx hstable
    rw [List.append_nil]
    exact ⟨(hsim.settle hpin).mono Set.subset_union_left,
      (hpin.of_localBelow hk).within Set.subset_union_left⟩
  · have hbound : ctx.locals.size ≤ x.index := hx ▸ hctx.size_le
    have hmem : x.index ∈ Set.Ico st.size st'.size := by
      simp only [Set.mem_Ico]
      omega
    refine ⟨(hsim.bind hbound d.info).mono ?_, hbound, ?_⟩
    · exact Set.union_subset_union_right _ (Set.singleton_subset_iff.2 hmem)
    · exact fun hx' => hx' (Set.mem_union_right _ hmem)

/-- Two operands, of which the first is spilled if the second hoists anything. -/
theorem ExprLowered.pair (hdecl : ∀ x, ctx.Knows x → ctx.isTemp x = false)
    (hctx : ctx.AddsTemps st₂.ctx) {l r dl dr dl' : Expr} {h₁ h₂ s : List Stmt}
    (hl : ExprLowered sigs ctx.locals.size m m' st st₁ l h₁ dl)
    (hr : ExprLowered sigs ctx.locals.size m m' st₁ st₂ r h₂ dr)
    (hst : st.size ≤ st₁.size) (hst' : st₁.size ≤ st₂.size)
    (hs : Lowers (spillBefore h₂ dl) st₂ (s, dl') st') :
    Simulates sigs ctx.locals.size m m' (Set.Ico st.size st'.size) [l, r] (h₁ ++ s ++ h₂)
      [dl', dr] := by
  have hsize := hs.size_le (grows_spillBefore h₂ dl)
  by_cases hh : h₂ = []
  · subst hh
    obtain ⟨heq, hstate⟩ := Lowers.pure_inv (c := ([], dl)) hs
    cases heq
    subst hstate
    simp only [List.append_nil]
    show Simulates sigs ctx.locals.size m m' _ ([l] ++ [r]) h₁ ([dl] ++ [dr])
    refine Simulates.append (hl.simulates.mono ?_) (hr.simulates.mono ?_)
    · exact Set.Ico_subset_Ico_right (by omega)
    · exact Set.Ico_subset_Ico_left (by omega)
  · obtain ⟨hpin, hat⟩ := spillBefore_pinned hdecl hctx hl.simulates hl.below hh hs
    show Simulates sigs ctx.locals.size m m' _ ([l] ++ [r]) (h₁ ++ s ++ h₂) ([dl'] ++ [dr])
    refine Pinned.simulates_append (hpin.mono ?_) hr.simulates ?_ ?_
    · exact Set.union_subset (Set.Ico_subset_Ico_right (by omega)) (Set.Ico_subset_Ico_left (by omega))
    · exact Set.Ico_subset_Ico hst hsize
    · intro d hd
      rw [List.mem_singleton.1 hd]
      exact hat.mono (step_subset_compl _ _ _)

/-! ## Lists of expressions -/

section Lists

variable (sigs m m') (bound : Nat)

/-- Expressions that have hoisted nothing, each simulated on its own. -/
def PlainList : List Expr → List Expr → Prop :=
  List.Forall₂ fun e d => Simulates sigs bound m m' ∅ [e] [] [d]

/-- Expressions that wait to be evaluated, of which only the first may have hoisted anything. -/
inductive Waiting (k : Nat) (temps : Set Nat) : List Expr → List Stmt → List Expr → Prop
  | nil : Waiting k temps [] [] []
  | cons {e : Expr} {es : List Expr} {h : List Stmt} {d : Expr} {ds : List Expr}
      (first : Simulates sigs bound m m' temps [e] h [d]) (rest : PlainList sigs m m' bound es ds)
      (below : ∀ d' ∈ d :: ds, Expr.LocalBelow k d') : Waiting k temps (e :: es) h (d :: ds)

/-- The expressions of a list that are lowered so far: some are settled, and the others wait. All
temporaries so far are those from `first` up to `k`. -/
def Staged (first k : Nat) (es : List Expr) (h : List Stmt) (ds : List Expr) : Prop :=
  ∃ es₁ h₁ ds₁ es₂ h₂ ds₂ temps, es = es₁ ++ es₂ ∧ h = h₁ ++ h₂ ∧ ds = ds₁ ++ ds₂ ∧
    Pinned sigs bound m m' (Set.Ico first k) es₁ h₁ ds₁ ∧
    (∀ d ∈ ds₁, Expr.Pin bound (Set.Iio k)ᶜ d) ∧ (∀ d ∈ ds₁, Expr.Pin bound temps d) ∧
    temps ⊆ Set.Ico first k ∧ Waiting sigs m m' bound k temps es₂ h₂ ds₂

end Lists

variable {bound k first : Nat} {es es₁ es₂ ds ds₁ ds₂ ds' : List Expr} {h₁ h₂ s : List Stmt}

theorem PlainList.simulates (hlist : PlainList sigs m m' bound es ds) :
    Simulates sigs bound m m' ∅ es [] ds := by
  induction hlist with
  | nil => exact .nil
  | cons hed _ ih => exact hed.append ih

theorem PlainList.waiting (hlist : PlainList sigs m m' bound es ds)
    (hbelow : ∀ d ∈ ds, Expr.LocalBelow k d) : Waiting sigs m m' bound k ∅ es [] ds := by
  cases hlist with
  | nil => exact .nil
  | cons hed hrest => exact .cons hed hrest hbelow

theorem Waiting.simulates (hw : Waiting sigs m m' bound k temps es h ds) :
    Simulates sigs bound m m' temps es h ds := by
  cases hw with
  | nil => exact .nil
  | cons hfirst hrest _ =>
      exact hfirst.append (hrest.simulates.mono (Set.empty_subset _))

theorem Waiting.mono {k' : Nat} (hw : Waiting sigs m m' bound k temps es h ds) (hk : k ≤ k') :
    Waiting sigs m m' bound k' temps es h ds := by
  cases hw with
  | nil => exact .nil
  | cons hfirst hrest hbelow => exact .cons hfirst hrest fun d hd => (hbelow d hd).mono hk

/-- One more expression that hoists nothing. -/
theorem Waiting.snoc (hw : Waiting sigs m m' bound k temps es h ds)
    (hsim : Simulates sigs bound m m' ∅ [e] [] [d]) (hd : Expr.LocalBelow k d) :
    Waiting sigs m m' bound k temps (es ++ [e]) h (ds ++ [d]) := by
  cases hw with
  | nil =>
      refine .cons (hsim.mono (Set.empty_subset _)) .nil ?_
      intro d' hd'
      rw [List.mem_singleton.1 hd']
      exact hd
  | cons hfirst hrest hbelow =>
      refine .cons hfirst (List.rel_append hrest (.cons hsim .nil)) ?_
      intro d' hd'
      rcases List.mem_append.1 (show d' ∈ (_ :: _) ++ [d] from hd') with hd' | hd'
      · exact hbelow d' hd'
      · rw [List.mem_singleton.1 hd']
        exact hd

/-- What is settled is not spilled again. -/
theorem spillAllBefore_append_inv (hds : ∀ d ∈ ds₁, isStable st.ctx d = true)
    (hl : Lowers (spillAllBefore later (ds₁ ++ ds)) st (s, ds') st') :
    ∃ ds₂, ds' = ds₁ ++ ds₂ ∧ Lowers (spillAllBefore later ds) st (s, ds₂) st' := by
  induction ds₁ generalizing s ds' with
  | nil => exact ⟨ds', rfl, hl⟩
  | cons d ds₁ ih =>
      obtain ⟨s₁, d₁, st₁, s₂, ds₂, h₁, h₂, rfl, rfl⟩ := spillAllBefore_cons_inv hl
      have hstable := hds d (by simp)
      rcases spillBefore_inv h₁ with ⟨rfl, rfl, rfl, -⟩ | ⟨x, -, -, -, -, -, hunstable⟩
      · obtain ⟨ds₃, rfl, h₃⟩ := ih (fun d hd => hds d (List.mem_cons_of_mem _ hd)) h₂
        exact ⟨ds₃, rfl, h₃⟩
      · rw [hstable] at hunstable
        cases hunstable

section Spill

variable (hdecl : ∀ x, ctx.Knows x → ctx.isTemp x = false) (hlater : later ≠ [])

include hdecl hlater

/-- Spilling expressions that wait settles them, one after the other. -/
theorem Waiting.spill (hw : Waiting sigs m m' ctx.locals.size k temps' es h ds)
    (hctx : ctx.AddsTemps st.ctx) (hk : k ≤ st.size)
    (hpin : Pinned sigs ctx.locals.size m m' temps es₁ h₁ ds₁)
    (hds₁ : ∀ d ∈ ds₁, Expr.Pin ctx.locals.size (Set.Iio st.size)ᶜ d)
    (hds₁' : ∀ d ∈ ds₁, Expr.Pin ctx.locals.size temps' d) (hsub : temps' ⊆ temps)
    (hl : Lowers (spillAllBefore later ds) st (s, ds') st') :
    Pinned sigs ctx.locals.size m m' (temps ∪ Set.Ico st.size st'.size) (es₁ ++ es)
        (h₁ ++ h ++ s) (ds₁ ++ ds') ∧
      ∀ d ∈ ds', Expr.Pin ctx.locals.size (Set.Iio k ∪ Set.Ico st.size st'.size)ᶜ d := by
  -- by induction on the list; after the first one, those that wait have hoisted nothing
  induction ds generalizing es h st es₁ h₁ ds₁ s ds' temps temps' with
  | nil =>
      cases hw
      obtain ⟨heq, rfl⟩ := hl.pure_inv
      cases heq
      simp only [List.append_nil, List.not_mem_nil, IsEmpty.forall_iff, implies_true, and_true]
      exact hpin.mono Set.subset_union_left
  | cons d ds ih =>
      cases hw with
      | @cons e es _ _ _ hfirst hrest hbelow =>
      obtain ⟨s₁, d₁, st₁, s₂, ds₂, hl₁, hl₂, rfl, rfl⟩ := spillAllBefore_cons_inv hl
      have hsize₁ := hl₁.size_le (grows_spillBefore later d)
      have hsize₂ := hl₂.size_le (grows_spillAllBefore later ds)
      obtain ⟨hpin₁, hat⟩ := spillBefore_pinned hdecl hctx hfirst (hbelow d (by simp)) hlater hl₁
      have happ : Pinned sigs ctx.locals.size m m' (temps ∪ Set.Ico st.size st₁.size)
          (es₁ ++ [e]) (h₁ ++ (h ++ s₁)) (ds₁ ++ [d₁]) := by
        refine (hpin.mono Set.subset_union_left).append hpin₁
          (Set.union_subset_union_left _ hsub) fun d' hd' => (hds₁' d' hd').union ?_
        exact ((hds₁ d' hd').within Set.subset_union_left).mono (step_subset_compl _ _ st₁.size)
      have hds₂ : ∀ d' ∈ ds₁ ++ [d₁], Expr.Pin ctx.locals.size (Set.Iio st₁.size)ᶜ d' := by
        intro d' hd'
        rcases List.mem_append.1 hd' with hd' | hd'
        · exact (hds₁ d' hd').within (Set.Iio_subset_Iio hsize₁)
        · rw [List.mem_singleton.1 hd']
          exact hat.within
            (Set.union_subset (Set.Iio_subset_Iio (by omega)) Set.Ico_subset_Iio_self)
      obtain ⟨hpin₂, hds'⟩ := ih
        (hrest.waiting fun d' hd' => hbelow d' (List.mem_cons_of_mem _ hd'))
        (hctx.trans (hl₁.addsTemps (grows_spillBefore later d))) (by omega) happ hds₂
        happ.pin (Set.empty_subset _) hl₂
      refine ⟨?_, fun d' hd' => ?_⟩
      · have hsub : temps ∪ Set.Ico st.size st₁.size ∪ Set.Ico st₁.size st'.size
            ⊆ temps ∪ Set.Ico st.size st'.size :=
          Set.union_subset (Set.union_subset_union_right _ (Set.Ico_subset_Ico_right hsize₂))
            ((Set.Ico_subset_Ico_left hsize₁).trans Set.subset_union_right)
        simpa only [List.append_assoc, List.singleton_append, List.nil_append, List.append_nil]
          using hpin₂.mono hsub
      · rcases List.mem_cons.1 hd' with rfl | hd'
        · exact hat.within (Set.union_subset_union_right _ (Set.Ico_subset_Ico_right hsize₂))
        · exact (hds' d' hd').within (Set.union_subset_union_right _ (Set.Ico_subset_Ico_left hsize₁))

end Spill

/-! ### Step by step -/

theorem Pinned.nil : Pinned sigs bound m m' temps [] [] [] :=
  ⟨by simp, fun hs hfr => .pure hs ⟨hfr, .refl _ _, [], rfl, .nil⟩⟩

theorem Staged.nil : Staged sigs m m' bound first first [] [] [] :=
  ⟨[], [], [], [], [], [], ∅, rfl, rfl, rfl, .nil, by simp, by simp, Set.empty_subset _, .nil⟩

theorem Staged.one (he : ExprLowered sigs bound m m' st st₁ e h d) :
    Staged sigs m m' bound st.size st₁.size [e] h [d] :=
  ⟨[], [], [], [e], h, [d], _, rfl, rfl, rfl, .nil, by simp, by simp, subset_rfl,
    .cons he.simulates .nil (by simpa using he.below)⟩

/-- What is staged is simulated. -/
theorem Staged.simulates (hst : Staged sigs m m' bound first k es h ds) :
    Simulates sigs bound m m' (Set.Ico first k) es h ds := by
  obtain ⟨es₁, h₁, ds₁, es₂, h₂, ds₂, temps, rfl, rfl, rfl, hpin, -, hds₁, hsub, hw⟩ := hst
  exact hpin.simulates_append hw.simulates hsub hds₁

/-- One more expression of the list: the expressions before it are spilled if it hoists anything. -/
theorem Staged.step (hdecl : ∀ x, ctx.Knows x → ctx.isTemp x = false)
    (hctx : ctx.AddsTemps st₁.ctx) (hst : Staged sigs m m' ctx.locals.size first st.size es h ds)
    (hfirst : first ≤ st.size) (hsize : st.size ≤ st₁.size) {h' : List Stmt}
    (he : ExprLowered sigs ctx.locals.size m m' st st₁ e h' d)
    (hl : Lowers (spillAllBefore h' ds) st₁ (s, ds') st₂) :
    Staged sigs m m' ctx.locals.size first st₂.size (es ++ [e]) (h ++ (s ++ h')) (ds' ++ [d]) := by
  have hsize₂ := hl.size_le (grows_spillAllBefore h' ds)
  obtain ⟨es₁, h₁, ds₁, es₂, h₂, ds₂, temps, rfl, rfl, rfl, hpin, hds₁, hds₁', hsub, hw⟩ := hst
  have hsettled : ∀ d ∈ ds₁, Expr.Pin ctx.locals.size (Set.Iio st₁.size)ᶜ d := fun d hd =>
    (hds₁ d hd).within (Set.Iio_subset_Iio hsize)
  have hstable : ∀ d ∈ ds₁, isStable st₁.ctx d = true := fun d hd =>
    isStable_of_pin hctx (hsettled d hd)
  by_cases hh : h' = []
  · -- nothing is hoisted, so the expression waits with the others
    subst hh
    have hplain : s = [] ∧ ds' = ds₁ ++ ds₂ ∧ st₂ = st₁ := spillAllBefore_nil_inv hl
    obtain ⟨rfl, rfl, rfl⟩ := hplain
    refine ⟨es₁, h₁, ds₁, es₂ ++ [e], h₂, ds₂ ++ [d], temps, by simp, by simp, by simp,
      hpin.mono (Set.Ico_subset_Ico_right hsize), hsettled, hds₁',
      hsub.trans (Set.Ico_subset_Ico_right hsize),
      (hw.mono hsize).snoc he.simulates.of_nil he.below⟩
  · -- everything before the hoisted statements is settled, and the expression is the first to wait
    obtain ⟨ds₃, rfl, hl₃⟩ := spillAllBefore_append_inv hstable hl
    obtain ⟨hpin₂, hds₃⟩ := hw.spill hdecl hh hctx hsize hpin hsettled hds₁' hsub hl₃
    have hall : ∀ d ∈ ds₁ ++ ds₃, Expr.Pin ctx.locals.size
        (Set.Iio st.size ∪ Set.Ico st₁.size st₂.size)ᶜ d := by
      intro d hd
      rcases List.mem_append.1 hd with hd | hd
      · exact (hds₁ d hd).within Set.subset_union_left
      · exact hds₃ d hd
    refine ⟨es₁ ++ es₂, h₁ ++ h₂ ++ s, ds₁ ++ ds₃, [e], h', [d], Set.Ico st.size st₁.size, rfl,
      by simp, rfl, hpin₂.mono ?_, ?_, ?_, ?_, .cons he.simulates .nil ?_⟩
    · exact Set.union_subset (Set.Ico_subset_Ico_right (by omega)) (Set.Ico_subset_Ico_left (by omega))
    · exact fun d hd => (hall d hd).within
        (Set.union_subset (Set.Iio_subset_Iio (by omega)) Set.Ico_subset_Iio_self)
    · exact fun d hd => (hall d hd).mono (step_subset_compl _ _ _)
    · exact Set.Ico_subset_Ico hfirst hsize₂
    · simpa using he.below.mono hsize₂

end Rivulet.Machine
