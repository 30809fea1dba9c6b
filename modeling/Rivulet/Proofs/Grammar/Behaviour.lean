import Rivulet.Grammar.Basic

set_option autoImplicit false

/-! # Runs without bounds

The parser of a grammar counts: its loops go on for a bounded number of rounds, and rules are nested
to a bounded depth. Here the same parser is described without any count, as a relation between
cursors and replies (`Gram.RunsTo`): a loop goes on until its body fails, and rules are nested as
deep as it takes. A pair is in the relation if the run *ends* with that reply.

A round of a loop that reads no token would be repeated for ever, so there is no rule for it; whoever
ends in a reply has read a token in every round of every loop.

* `Behaviour.Rounds`, `Behaviour.Turns`, `Behaviour.Search`: the three loops, each an inductive
  relation over the runs of its body;
* `Gram.Runs`: one clause for each form of grammar, relative to the runs of the rules. Forms without
  a loop are interpreted by the combinator of the parser, applied to replies of their parts;
* `Gram.within`, `Gram.RunsTo`: the runs of rules nested at most so deep, or to any depth.

A run has at most one reply (`Gram.RunsTo.unique`). -/

namespace Rivulet.Grammar

/-- Which replies a parser can end with, at which cursors. -/
abbrev Behaviour (α : Type) := Cursor → Reply α → Prop

namespace Behaviour

variable {α β : Type}

/-! ## Loops -/

section Loops

variable (S : Behaviour α) (T : Behaviour β)

/-- Rounds of a loop until its body fails. -/
inductive Rounds : Option Failure → Behaviour (List α) where
  | stop {rival : Option Failure} {c : Cursor} {errs : List Failure} {e : Failure}
      (body : S c ⟨errs, .fail e⟩) :
      Rounds rival c
        ⟨[], .ok [] c (Failure.merge rival (Failure.merge (some e) errs.head?))⟩
  | next {rival rival' : Option Failure} {c d : Cursor} {errs : List Failure} {a : α}
      {r : Reply (List α)} (body : S c ⟨errs, .ok a d rival'⟩) (reads : c.position < d.position)
      (more : Rounds (Failure.merge rival rival') d r) :
      Rounds rival c ⟨errs ++ r.errors, r.result.map (a :: ·)⟩

/-- A separator and an item in turn, until one of them fails. -/
inductive Turns : Option Failure → Behaviour (List α × Option Failure) where
  | separatorFails {rival : Option Failure} {c : Cursor} {errs : List Failure} {e : Failure}
      (separator : T c ⟨errs, .fail e⟩) : Turns rival c ⟨errs, .ok ([], some e) c rival⟩
  | itemFails {rival rival' : Option Failure} {c d : Cursor} {errs errs' : List Failure} {b : β}
      {e : Failure} (separator : T c ⟨errs, .ok b d rival'⟩) (item : S d ⟨errs', .fail e⟩) :
      Turns rival c ⟨errs ++ errs', .ok ([], some e) c (Failure.merge rival rival')⟩
  | next {rival rival' rival'' : Option Failure} {c d d' : Cursor} {errs errs' : List Failure}
      {a : α} {b : β} {r : Reply (List α × Option Failure)}
      (separator : T c ⟨errs, .ok b d rival'⟩) (item : S d ⟨errs', .ok a d' rival''⟩)
      (reads : c.position < d'.position)
      (more : Turns (Failure.merge (Failure.merge rival rival') rival'') d' r) :
      Turns rival c
        ⟨errs ++ errs' ++ r.errors, r.result.map fun (as, e) => (a :: as, e)⟩

/-- Where a list of items ends: behind a last separator, if one is allowed and there is one. -/
def Trails (allowTrailing : Bool) (rival : Option Failure) (c : Cursor)
    (last : Cursor × Option Failure) : Prop :=
  if allowTrailing then ∃ x, T c x ∧ last = Parser.trailing (fun _ => x) rival c
  else last = (c, rival)

/-- Items with separators between them. -/
inductive Separated (allowTrailing : Bool) : Behaviour (List α) where
  | none {c : Cursor} {errs : List Failure} {e : Failure} (head : S c ⟨errs, .fail e⟩) :
      Separated allowTrailing c ⟨errs, .ok [] c (some e)⟩
  | some {c d d' : Cursor} {errs errs' : List Failure} {a : α} {as : List α}
      {rival rival' e : Option Failure} {last : Cursor × Option Failure}
      (head : S c ⟨errs, .ok a d rival⟩) (tail : Turns S T rival d ⟨errs', .ok (as, e) d' rival'⟩)
      (trails : Trails T allowTrailing rival' d' last) :
      Separated allowTrailing c ⟨errs ++ errs', .ok (a :: as) last.1 (Failure.merge last.2 e)⟩

/-- The search for the next place where the body succeeds, after the given errors and failure. -/
inductive Search (errors : List Failure) (failure : Failure) : Behaviour α where
  | found {c d : Cursor} {errs : List Failure} {a : α} {rival : Option Failure}
      (body : S c ⟨errs, .ok a d rival⟩) :
      Search errors failure c ⟨errs ++ [failure], .ok a d rival⟩
  | skip {c c' : Cursor} {errs : List Failure} {e : Failure} {l : Lexeme} {r : Reply α}
      (body : S c ⟨errs, .fail e⟩) (skipped : c.next? = some (l, c'))
      (more : Search errors failure c' r) : Search errors failure c r
  | exhausted {c : Cursor} {errs : List Failure} {e : Failure} (body : S c ⟨errs, .fail e⟩)
      (ended : c.next? = none) : Search errors failure c ⟨errors, .fail failure⟩

/-- The body at once, or else the search for it one token farther on. -/
inductive OrSearch : Behaviour α where
  | found {c d : Cursor} {errs : List Failure} {a : α} {rival : Option Failure}
      (body : S c ⟨errs, .ok a d rival⟩) : OrSearch c ⟨errs, .ok a d rival⟩
  | search {c : Cursor} {errs : List Failure} {e : Failure} {r : Reply α}
      (body : S c ⟨errs, .fail e⟩) (more : Search S errs e c.advance r) : OrSearch c r

end Loops

/-! ## One reply at most -/

/-- At every cursor there is at most one reply. -/
def Functional (S : Behaviour α) : Prop := ∀ ⦃c : Cursor⦄ ⦃x y : Reply α⦄, S c x → S c y → x = y

namespace Functional

variable {S : Behaviour α} {T : Behaviour β}

theorem not_ok_fail (h : S.Functional) {c d : Cursor} {errs errs' : List Failure} {a : α}
    {rival : Option Failure} {e : Failure} (hok : S c ⟨errs, .ok a d rival⟩)
    (hfail : S c ⟨errs', .fail e⟩) : False := by
  cases h hok hfail

theorem rounds (h : S.Functional) (rival : Option Failure) : (Rounds S rival).Functional := by
  intro c x y hx
  induction hx generalizing y with
  | stop body =>
      intro hy
      cases hy with
      | stop body' =>
          cases h body body'
          rfl
      | next body' _ _ => exact (h.not_ok_fail body' body).elim
  | next body _ _ ih =>
      intro hy
      cases hy with
      | stop body' => exact (h.not_ok_fail body body').elim
      | next body' _ more' =>
          cases h body body'
          rw [ih more']

theorem turns (h : S.Functional) (hT : T.Functional) (rival : Option Failure) :
    (Turns S T rival).Functional := by
  intro c x y hx
  induction hx generalizing y with
  | separatorFails separator =>
      intro hy
      cases hy with
      | separatorFails separator' =>
          cases hT separator separator'
          rfl
      | itemFails separator' _ => exact (hT.not_ok_fail separator' separator).elim
      | next separator' _ _ _ => exact (hT.not_ok_fail separator' separator).elim
  | itemFails separator item =>
      intro hy
      cases hy with
      | separatorFails separator' => exact (hT.not_ok_fail separator separator').elim
      | itemFails separator' item' =>
          cases hT separator separator'
          cases h item item'
          rfl
      | next separator' item' _ _ =>
          cases hT separator separator'
          exact (h.not_ok_fail item' item).elim
  | next separator item _ _ ih =>
      intro hy
      cases hy with
      | separatorFails separator' => exact (hT.not_ok_fail separator separator').elim
      | itemFails separator' item' =>
          cases hT separator separator'
          exact (h.not_ok_fail item item').elim
      | next separator' item' _ more' =>
          cases hT separator separator'
          cases h item item'
          rw [ih more']

theorem trails (hT : T.Functional) {allowTrailing : Bool} {rival : Option Failure} {c : Cursor}
    {last last' : Cursor × Option Failure} (h : Trails T allowTrailing rival c last)
    (h' : Trails T allowTrailing rival c last') : last = last' := by
  unfold Trails at h h'
  split at h
  · rename_i hallow
    rw [if_pos hallow] at h'
    obtain ⟨x, hx, rfl⟩ := h
    obtain ⟨y, hy, rfl⟩ := h'
    rw [hT hx hy]
  · rename_i hallow
    rw [if_neg hallow] at h'
    rw [h, h']

theorem separated (h : S.Functional) (hT : T.Functional) (allowTrailing : Bool) :
    (Separated S T allowTrailing).Functional := by
  intro c x y hx hy
  cases hx with
  | none head =>
      cases hy with
      | none head' =>
          cases h head head'
          rfl
      | some head' _ _ => exact (h.not_ok_fail head' head).elim
  | some head tail trails =>
      cases hy with
      | none head' => exact (h.not_ok_fail head head').elim
      | some head' tail' trails' =>
          cases h head head'
          cases h.turns hT _ tail tail'
          rw [hT.trails trails trails']

theorem search (h : S.Functional) (errors : List Failure) (failure : Failure) :
    (Search S errors failure).Functional := by
  intro c x y hx
  induction hx with
  | found body =>
      intro hy
      cases hy with
      | found body' =>
          cases h body body'
          rfl
      | skip body' _ _ => exact (h.not_ok_fail body body').elim
      | exhausted body' _ => exact (h.not_ok_fail body body').elim
  | skip body skipped _ ih =>
      intro hy
      cases hy with
      | found body' => exact (h.not_ok_fail body' body).elim
      | skip _ skipped' more' =>
          rw [skipped] at skipped'
          cases skipped'
          exact ih more'
      | exhausted _ ended' =>
          rw [skipped] at ended'
          cases ended'
  | exhausted body ended =>
      intro hy
      cases hy with
      | found body' => exact (h.not_ok_fail body' body).elim
      | skip _ skipped' _ =>
          rw [ended] at skipped'
          cases skipped'
      | exhausted _ _ => rfl

theorem orSearch (h : S.Functional) : (OrSearch S).Functional := by
  intro c x y hx hy
  cases hx with
  | found body =>
      cases hy with
      | found body' => exact h body body'
      | search body' _ => exact (h.not_ok_fail body body').elim
  | search body more =>
      cases hy with
      | found body' => exact (h.not_ok_fail body' body).elim
      | search body' more' =>
          cases h body body'
          exact h.search _ _ more more'

end Functional

/-! ## More behaviour of the parts, more behaviour of the whole -/

section Mono

variable {S S' : Behaviour α} {T T' : Behaviour β}

theorem Rounds.mono (h : ∀ c r, S c r → S' c r) {rival : Option Failure} {c : Cursor}
    {r : Reply (List α)} (hr : Rounds S rival c r) : Rounds S' rival c r := by
  induction hr with
  | stop body => exact .stop (h _ _ body)
  | next body reads _ ih => exact .next (h _ _ body) reads ih

theorem Turns.mono (h : ∀ c r, S c r → S' c r) (hT : ∀ c r, T c r → T' c r)
    {rival : Option Failure} {c : Cursor} {r : Reply (List α × Option Failure)}
    (hr : Turns S T rival c r) : Turns S' T' rival c r := by
  induction hr with
  | separatorFails separator => exact .separatorFails (hT _ _ separator)
  | itemFails separator item => exact .itemFails (hT _ _ separator) (h _ _ item)
  | next separator item reads _ ih => exact .next (hT _ _ separator) (h _ _ item) reads ih

theorem Trails.mono (hT : ∀ c r, T c r → T' c r) {allowTrailing : Bool} {rival : Option Failure}
    {c : Cursor} {last : Cursor × Option Failure} (h : Trails T allowTrailing rival c last) :
    Trails T' allowTrailing rival c last := by
  unfold Trails at h ⊢
  split at h
  · rename_i hallow
    obtain ⟨x, hx, hlast⟩ := h
    rw [if_pos hallow]
    exact ⟨x, hT _ _ hx, hlast⟩
  · rename_i hallow
    rw [if_neg hallow]
    exact h

theorem Separated.mono (h : ∀ c r, S c r → S' c r) (hT : ∀ c r, T c r → T' c r)
    {allowTrailing : Bool} {c : Cursor} {r : Reply (List α)}
    (hr : Separated S T allowTrailing c r) : Separated S' T' allowTrailing c r := by
  cases hr with
  | none head => exact .none (h _ _ head)
  | some head tail trails => exact .some (h _ _ head) (tail.mono h hT) (trails.mono hT)

theorem Search.mono (h : ∀ c r, S c r → S' c r) {errors : List Failure} {failure : Failure}
    {c : Cursor} {r : Reply α} (hr : Search S errors failure c r) :
    Search S' errors failure c r := by
  induction hr with
  | found body => exact .found (h _ _ body)
  | skip body skipped _ ih => exact .skip (h _ _ body) skipped ih
  | exhausted body ended => exact .exhausted (h _ _ body) ended

theorem OrSearch.mono (h : ∀ c r, S c r → S' c r) {c : Cursor} {r : Reply α}
    (hr : OrSearch S c r) : OrSearch S' c r := by
  cases hr with
  | found body => exact .found (h _ _ body)
  | search body more => exact .search (h _ _ body) (more.mono h)

end Mono

end Behaviour

/-! ## Grammars -/

namespace Gram

variable {R : Type → Type} {α : Type}

/-- The runs of a grammar, given those of its rules. -/
def Runs (rules : {α : Type} → R α → Behaviour α) : {α : Type} → Gram R α → Behaviour α
  | _, .token t => fun c r => r = Parser.token t c
  | _, .pick f => fun c r => r = Parser.pick f c
  | _, .finish => fun c r => r = Parser.finish c
  | _, .seq a b => fun c r =>
      ∃ x y, a.Runs rules c x ∧ (∀ v d rival, x.result = .ok v d rival → b.Runs rules d y) ∧
        r = Parser.seq (fun _ => x) (fun _ => y) c
  | _, .map f a => fun c r => ∃ x, a.Runs rules c x ∧ r = x.map f
  | _, .orElse a b => fun c r =>
      ∃ x y, a.Runs rules c x ∧ (x.isClean = false → b.Runs rules c y) ∧
        r = Parser.orElse (fun _ => x) (fun _ => y) c
  | _, .optional a => fun c r => ∃ x, a.Runs rules c x ∧ r = Parser.optional (fun _ => x) c
  | _, .many a => Behaviour.Rounds (a.Runs rules) none
  | _, .sepBy item sep allowTrailing =>
      Behaviour.Separated (item.Runs rules) (sep.Runs rules) allowTrailing
  | _, .located f a => fun c r => ∃ x, a.Runs rules c x ∧ r = Parser.located f (fun _ => x) c
  | _, .orSkipBrackets a b placeholder => fun c r =>
      ∃ x, a.Runs rules c x ∧ r = Parser.orSkipBrackets (fun _ => x) b placeholder c
  | _, .orSkipTokens a => Behaviour.OrSearch (a.Runs rules)
  | _, .rule r => rules r
termination_by structural _ a => a

/-- The runs of a rule with the given bodies in which rules are nested less than `n` deep. -/
def within (body : {α : Type} → R α → Gram R α) : Nat → {α : Type} → R α → Behaviour α
  | 0, _, _ => fun _ _ => False
  | n + 1, _, r => (body r).Runs (within body n)
termination_by structural n => n

/-- At the cursor, a run of the grammar ends with the reply, however deep rules are nested. -/
def RunsTo (body : {α : Type} → R α → Gram R α) (g : Gram R α) : Behaviour α := fun c r =>
  ∃ n, g.Runs (within body n) c r

variable {rules rules' : {α : Type} → R α → Behaviour α}

theorem Runs.mono (h : ∀ {α : Type} (q : R α) c x, rules q c x → rules' q c x) (g : Gram R α) :
    ∀ {c : Cursor} {r : Reply α}, g.Runs rules c r → g.Runs rules' c r := by
  induction g with
  | token t | pick f | finish => exact id
  | seq a b iha ihb =>
      rintro c r ⟨x, y, hx, hy, rfl⟩
      exact ⟨x, y, iha hx, fun v d rival hv => ihb (hy v d rival hv), rfl⟩
  | map f a ih | optional a ih | located f a ih | orSkipBrackets a b placeholder ih =>
      rintro c r ⟨x, hx, rfl⟩
      exact ⟨x, ih hx, rfl⟩
  | orElse a b iha ihb =>
      rintro c r ⟨x, y, hx, hy, rfl⟩
      exact ⟨x, y, iha hx, fun hdirty => ihb (hy hdirty), rfl⟩
  | many a ih => exact Behaviour.Rounds.mono fun _ _ hx => ih hx
  | sepBy item sep allowTrailing ihitem ihsep =>
      exact Behaviour.Separated.mono (fun _ _ hx => ihitem hx) fun _ _ hx => ihsep hx
  | orSkipTokens a ih => exact Behaviour.OrSearch.mono fun _ _ hx => ih hx
  | rule q => exact h q _ _

theorem Runs.functional (h : ∀ {α : Type} (q : R α), (rules q).Functional) (g : Gram R α) :
    (g.Runs rules).Functional := by
  induction g with
  | token t | pick f | finish =>
      rintro c x y rfl rfl
      rfl
  | seq a b iha ihb =>
      rintro c _ _ ⟨x, y, hx, hy, rfl⟩ ⟨x', y', hx', hy', rfl⟩
      cases iha hx hx'
      -- the second part is run only if the first succeeds, and its reply counts only then
      obtain ⟨errs, result⟩ := x
      cases result with
      | ok v d rival =>
          cases ihb (hy v d rival rfl) (hy' v d rival rfl)
          rfl
      | fail e => rfl
  | map f a ih | optional a ih | located f a ih | orSkipBrackets a b placeholder ih =>
      rintro c _ _ ⟨x, hx, rfl⟩ ⟨y, hy, rfl⟩
      cases ih hx hy
      rfl
  | orElse a b iha ihb =>
      rintro c _ _ ⟨x, y, hx, hy, rfl⟩ ⟨x', y', hx', hy', rfl⟩
      cases iha hx hx'
      by_cases hclean : x.isClean = true
      · simp only [Parser.orElse, hclean, if_true]
      · have hdirty : x.isClean = false := Bool.eq_false_iff.2 hclean
        cases ihb (hy hdirty) (hy' hdirty)
        rfl
  | many a ih => exact ih.rounds none
  | sepBy item sep allowTrailing ihitem ihsep => exact ihitem.separated ihsep allowTrailing
  | orSkipTokens a ih => exact ih.orSearch
  | rule q => exact h q

section Within

variable (body : {α : Type} → R α → Gram R α)

theorem within_functional : ∀ (n : Nat) {α : Type} (q : R α), (within body n q).Functional
  | 0, _, _ => fun _ _ _ h => h.elim
  | n + 1, _, q => Runs.functional (within_functional n) (body q)

theorem within_succ : ∀ (n : Nat) {α : Type} (q : R α) (c : Cursor) (r : Reply α),
    within body n q c r → within body (n + 1) q c r
  | 0, _, _, _, _, h => h.elim
  | n + 1, _, q, _, _, h => Runs.mono (within_succ n) (body q) h

theorem within_le {n m : Nat} (hnm : n ≤ m) {α : Type} (q : R α) (c : Cursor) (r : Reply α)
    (h : within body n q c r) : within body m q c r := by
  induction hnm with
  | refl => exact h
  | step _ ih => exact within_succ body _ q c r ih

end Within

/-- **A run has one reply at most.** -/
theorem RunsTo.unique {body : {α : Type} → R α → Gram R α} {g : Gram R α} {c : Cursor}
    {x y : Reply α} (hx : RunsTo body g c x) (hy : RunsTo body g c y) : x = y := by
  obtain ⟨n, hn⟩ := hx
  obtain ⟨m, hm⟩ := hy
  have hn' := Runs.mono (within_le body (Nat.le_max_left n m)) g hn
  have hm' := Runs.mono (within_le body (Nat.le_max_right n m)) g hm
  exact Runs.functional (within_functional body (max n m)) g hn' hm'

end Gram

end Rivulet.Grammar
