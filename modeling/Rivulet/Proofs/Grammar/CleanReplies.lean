import Rivulet.Grammar.Basic

set_option autoImplicit false

/-! # Clean replies

A parser that recovers from a failure puts something in place of what it could not read, but it says
so: the failure is among the errors of its reply. A reply without errors is made of replies without
errors. `Parser.Clean` is the relation of such replies, and there is one lemma for each combinator
that says what a clean reply of it is made of.

So what holds of everything that is really read holds of the value of a clean reply. `Gram.Yields`
is that relation between a grammar and a property of values; there is one lemma for each form of
grammar, and a placeholder need not have the property. -/

namespace Rivulet.Grammar

/-! ## What a clean reply is made of -/

namespace Parser

variable {α β : Type}

/-- At the cursor `c`, the parser reads the value `a` without errors and stops at `d`. -/
def Clean (p : Parser α) (c : Cursor) (a : α) (d : Cursor) : Prop :=
  ∃ rival, p c = ⟨[], .ok a d rival⟩

/-- Clean replies in a row. -/
inductive CleanRounds (p : Parser α) : Cursor → List α → Cursor → Prop where
  | nil (c : Cursor) : CleanRounds p c [] c
  | cons {c m d : Cursor} {a : α} {as : List α} (head : p.Clean c a m)
      (tail : CleanRounds p m as d) : CleanRounds p c (a :: as) d

/-- Clean replies in a row, of a separator and an item in turn. -/
inductive CleanItems (item : Parser α) (sep : Parser β) : Cursor → List α → Cursor → Prop where
  | nil (c : Cursor) : CleanItems item sep c [] c
  | cons {c m n d : Cursor} {b : β} {a : α} {as : List α} (separator : sep.Clean c b m)
      (head : item.Clean m a n) (tail : CleanItems item sep n as d) :
      CleanItems item sep c (a :: as) d

namespace Clean

variable {p q : Parser α} {c d : Cursor} {a : α}

theorem token {t t' : Token} (h : (Parser.token t).Clean c t' d) :
    t' = t ∧ ∃ l, c.next? = some (l, d) ∧ l.token = t := by
  obtain ⟨rival, h⟩ := h
  unfold Parser.token at h
  split at h
  · rename_i l c' hnext
    split at h
    · rename_i hl
      cases h
      exact ⟨rfl, l, hnext, hl⟩
    · cases h
  · cases h

theorem pick {f : Token → Option α} (h : (Parser.pick f).Clean c a d) :
    ∃ l, c.next? = some (l, d) ∧ f l.token = some a := by
  obtain ⟨rival, h⟩ := h
  unfold Parser.pick at h
  split at h
  · rename_i l c' hnext
    split at h
    · rename_i x hx
      cases h
      exact ⟨l, hnext, hx⟩
    · cases h
  · cases h

theorem finish {u : Unit} (h : Parser.finish.Clean c u d) : d = c ∧ c.rest = [] := by
  obtain ⟨rival, h⟩ := h
  unfold Parser.finish at h
  split at h
  · rename_i hrest
    cases h
    exact ⟨rfl, hrest⟩
  · cases h

theorem seq {p : Parser α} {q : Parser β} {v : α × β} (h : (Parser.seq p q).Clean c v d) :
    ∃ m, p.Clean c v.1 m ∧ q.Clean m v.2 d := by
  obtain ⟨rival, h⟩ := h
  unfold Parser.seq at h
  split at h
  · cases h
  · rename_i errs x m rival₁ hx
    split at h
    · simp at h
    · rename_i errs' y d' rival₂ hy
      simp only [Reply.mk.injEq, List.append_eq_nil_iff, Result.ok.injEq] at h
      obtain ⟨⟨rfl, rfl⟩, rfl, rfl, -⟩ := h
      exact ⟨m, ⟨rival₁, hx⟩, ⟨rival₂, hy⟩⟩

theorem map {f : α → β} {b : β} (h : Clean (fun c => (p c).map f) c b d) :
    ∃ a, p.Clean c a d ∧ b = f a := by
  obtain ⟨rival, h⟩ := h
  cases hp : p c with
  | mk errs result =>
      simp only [hp, Reply.map, Reply.mk.injEq] at h
      obtain ⟨rfl, hres⟩ := h
      cases result with
      | fail e => cases hres
      | ok a d' rival' =>
          cases hres
          exact ⟨a, ⟨_, hp⟩, rfl⟩

/-- A chosen reply without errors is one of the two, up to its rival. -/
theorem of_choose {x y : Reply α} {rival : Option Failure}
    (h : Parser.choose x y = ⟨[], .ok a d rival⟩) :
    (∃ rival', x = ⟨[], .ok a d rival'⟩) ∨ ∃ rival', y = ⟨[], .ok a d rival'⟩ := by
  -- a value is never merged, so either way the errors are those of the reply that was chosen
  have key : ∀ (z : Reply α) (other : Option Failure),
      (⟨z.errors, z.result.addRival other⟩ : Reply α) = ⟨[], .ok a d rival⟩ →
        ∃ rival', z = ⟨[], .ok a d rival'⟩ := by
    rintro ⟨errs, r⟩ other hz
    cases r with
    | fail e => cases hz
    | ok v' d' r' =>
        simp only [Result.addRival, Reply.mk.injEq, Result.ok.injEq] at hz
        obtain ⟨rfl, rfl, rfl, -⟩ := hz
        exact ⟨r', rfl⟩
  unfold Parser.choose at h
  repeat' split at h
  all_goals first
    | exact .inl (key _ _ h)
    | exact .inr (key _ _ h)
    | simp at h

theorem orElse (h : (Parser.orElse p q).Clean c a d) : p.Clean c a d ∨ q.Clean c a d := by
  obtain ⟨rival, h⟩ := h
  unfold Parser.orElse at h
  dsimp only at h
  split at h
  · exact .inl ⟨rival, h⟩
  · split at h
    · exact .inr ⟨rival, h⟩
    · exact of_choose h

theorem optional {o : Option α} (h : (Parser.optional p).Clean c o d) :
    (o = none ∧ d = c) ∨ ∃ a, o = some a ∧ p.Clean c a d := by
  obtain ⟨rival, h⟩ := h
  unfold Parser.optional at h
  split at h
  · rename_i errs x d' rival' hx
    cases h
    exact .inr ⟨x, rfl, _, hx⟩
  · cases h
    exact .inl ⟨rfl, rfl⟩

theorem manyUpTo : ∀ {n : Nat} {rival : Option Failure} {c : Cursor} {as : List α},
    Clean (Parser.manyUpTo p n rival) c as d → CleanRounds p c as d
  | 0, rival, c, as, h => by
      obtain ⟨rival', h⟩ := h
      cases h
      exact .nil _
  | n + 1, rival, c, as, h => by
      obtain ⟨rival', h⟩ := h
      unfold Parser.manyUpTo at h
      split at h
      · rename_i errs x m rival₁ hx
        simp only [Reply.mk.injEq, List.append_eq_nil_iff] at h
        obtain ⟨⟨rfl, herr⟩, hres⟩ := h
        have hrest : Clean (fun c => (Parser.manyUpTo p n (Failure.merge rival rival₁) c).map
            (x :: ·)) m as d := ⟨rival', by simp only [Reply.map, herr, hres]⟩
        obtain ⟨xs, hxs, rfl⟩ := map hrest
        exact .cons ⟨rival₁, hx⟩ (manyUpTo hxs)
      · cases h
        exact .nil _

theorem many {as : List α} (h : (Parser.many p).Clean c as d) : CleanRounds p c as d := manyUpTo h

theorem moreUpTo {item : Parser α} {sep : Parser β} :
    ∀ {n : Nat} {rival : Option Failure} {c : Cursor} {as : List α} {e : Option Failure},
      Clean (Parser.moreUpTo item sep n rival) c (as, e) d → CleanItems item sep c as d
  | 0, rival, c, as, e, h => by
      obtain ⟨rival', h⟩ := h
      cases h
      exact .nil _
  | n + 1, rival, c, as, e, h => by
      obtain ⟨rival', h⟩ := h
      unfold Parser.moreUpTo at h
      split at h
      · cases h
        exact .nil _
      · rename_i errs b m rival₁ hsep
        split at h
        · simp only [Reply.mk.injEq, Result.ok.injEq, Prod.mk.injEq] at h
          obtain ⟨-, ⟨rfl, -⟩, rfl, -⟩ := h
          exact .nil _
        · rename_i errs' x m' rival₂ hx
          simp only [Reply.mk.injEq, List.append_eq_nil_iff] at h
          obtain ⟨⟨⟨rfl, rfl⟩, herr⟩, hres⟩ := h
          have hrest : Clean (fun c => (Parser.moreUpTo item sep n
              (Failure.merge (Failure.merge rival rival₁) rival₂) c).map
                fun p => (x :: p.1, p.2)) m' (as, e) d :=
            ⟨rival', by simp only [Reply.map, herr, hres]⟩
          obtain ⟨⟨xs, e'⟩, hxs, heq⟩ := map hrest
          cases heq
          exact .cons ⟨rival₁, hsep⟩ ⟨rival₂, hx⟩ (moreUpTo hxs)

/-- Of the separator behind the last item, only the result counts: its errors would be lost. -/
theorem sepBy {item : Parser α} {sep : Parser β} {allowTrailing : Bool} {as : List α}
    (h : (Parser.sepBy item sep allowTrailing).Clean c as d) :
    (as = [] ∧ d = c) ∨
      ∃ x xs m n, as = x :: xs ∧ item.Clean c x m ∧ CleanItems item sep m xs n ∧
        (d = n ∨ allowTrailing = true ∧ ∃ b rival, (sep n).result = .ok b d rival) := by
  obtain ⟨rival, h⟩ := h
  unfold Parser.sepBy at h
  split at h
  · cases h
    exact .inl ⟨rfl, rfl⟩
  · rename_i errs x m rival₁ hx
    split at h
    · simp at h
    · rename_i errs' xs e n rival₂ hxs
      simp only [Reply.mk.injEq, List.append_eq_nil_iff, Result.ok.injEq] at h
      obtain ⟨⟨rfl, rfl⟩, rfl, hd, -⟩ := h
      refine .inr ⟨x, xs, m, n, rfl, ⟨rival₁, hx⟩, moreUpTo ⟨rival₂, hxs⟩, ?_⟩
      by_cases ht : allowTrailing = true
      · rw [if_pos ht] at hd
        unfold trailing at hd
        split at hd
        · rename_i b d' rival₃ hb
          exact .inr ⟨ht, b, rival₃, by rw [hb, ← hd]⟩
        · exact .inl hd.symm
      · rw [if_neg ht] at hd
        exact .inl hd.symm

theorem located {f : α → Span → β} {b : β} (h : (Parser.located f p).Clean c b d) :
    ∃ a, p.Clean c a d ∧ b = f a (c.spanTo d) := by
  obtain ⟨rival, h⟩ := h
  unfold Parser.located at h
  split at h
  · rename_i errs x d' rival' hx
    cases h
    exact ⟨x, ⟨_, hx⟩, rfl⟩
  · cases h

/-- Skipping a bracketed part leaves an error. -/
theorem orSkipBrackets {b : Brackets} {placeholder : Span → α}
    (h : (Parser.orSkipBrackets p b placeholder).Clean c a d) : p.Clean c a d := by
  obtain ⟨rival, h⟩ := h
  unfold Parser.orSkipBrackets at h
  split at h
  · rename_i errs x d' rival' hx
    exact ⟨rival, hx.trans h⟩
  · unfold Brackets.recover at h
    dsimp only at h
    split at h
    · simp at h
    · simp only [Reply.mk.injEq] at h
      obtain ⟨herr, -⟩ := h
      split at herr
      · rename_i hcovered
        rw [herr] at hcovered
        cases hcovered
      · simp at herr

/-- Every value that is found by skipping tokens comes with the failure before it. -/
theorem not_retry {errs : List Failure} {e : Failure} :
    ∀ {n : Nat} {c : Cursor}, ¬ Clean (retry p errs e n) c a d
  | 0, c, ⟨rival, h⟩ => by cases h
  | n + 1, c, ⟨rival, h⟩ => by
      unfold retry at h
      split at h
      · simp at h
      · split at h
        · exact not_retry ⟨rival, h⟩
        · cases h

/-- Skipping tokens leaves an error. -/
theorem orSkipTokens (h : (Parser.orSkipTokens p).Clean c a d) : p.Clean c a d := by
  obtain ⟨rival, h⟩ := h
  unfold Parser.orSkipTokens at h
  split at h
  · rename_i errs x d' rival' hx
    exact ⟨rival, hx.trans h⟩
  · exact absurd ⟨rival, h⟩ not_retry

end Clean

end Parser

namespace Gram

variable {R : Type → Type} {rules : {α : Type} → R α → Parser α} {α β γ : Type}

/-! ## Properties of what is read -/

/-- The values of replies without errors have a property. -/
def Yields (rules : {α : Type} → R α → Parser α) (g : Gram R α) (P : α → Prop) : Prop :=
  ∀ c a d rival, g.run rules c = ⟨[], .ok a d rival⟩ → P a

namespace Yields

variable {P : α → Prop} {Q : β → Prop} {a : Gram R α} {b : Gram R β} {o : Gram R γ}

theorem of_clean (h : Yields rules a P) {c d : Cursor} {x : α} (hx : (a.run rules).Clean c x d) :
    P x :=
  hx.elim fun rival hx => h c x d rival hx

theorem any (a : Gram R α) : Yields rules a fun _ => True := fun _ _ _ _ _ => trivial

theorem weaken {P' : α → Prop} (h : Yields rules a P) (hP : ∀ x, P x → P' x) : Yields rules a P' :=
  fun c x d rival hx => hP x (h c x d rival hx)

theorem seq (ha : Yields rules a P) (hb : Yields rules b Q) :
    Yields rules (.seq a b) fun p => P p.1 ∧ Q p.2 := by
  intro c p d rival h
  obtain ⟨m, hx, hy⟩ := Parser.Clean.seq ⟨rival, h⟩
  exact ⟨ha.of_clean hx, hb.of_clean hy⟩

theorem map {f : α → β} (h : Yields rules a fun x => Q (f x)) : Yields rules (.map f a) Q := by
  intro c y d rival hy
  obtain ⟨x, hx, rfl⟩ := Parser.Clean.map ⟨rival, hy⟩
  exact h.of_clean hx

theorem located {f : α → Span → β} (h : Yields rules a fun x => ∀ s, Q (f x s)) :
    Yields rules (.located f a) Q := by
  intro c y d rival hy
  obtain ⟨x, hx, rfl⟩ := Parser.Clean.located ⟨rival, hy⟩
  exact h.of_clean hx _

theorem orElse {b : Gram R α} (ha : Yields rules a P) (hb : Yields rules b P) :
    Yields rules (.orElse a b) P := by
  intro c x d rival h
  rcases Parser.Clean.orElse ⟨rival, h⟩ with hx | hx
  · exact ha.of_clean hx
  · exact hb.of_clean hx

theorem optional (h : Yields rules a P) : Yields rules (.optional a) fun o => ∀ x ∈ o, P x := by
  intro c o d rival ho
  rcases Parser.Clean.optional ⟨rival, ho⟩ with ⟨rfl, -⟩ | ⟨x, rfl, hx⟩
  · simp
  · intro y hy
    cases hy
    exact h.of_clean hx

theorem many (h : Yields rules a P) : Yields rules (.many a) fun xs => ∀ x ∈ xs, P x := by
  intro c xs d rival hxs
  have hrounds := Parser.Clean.many ⟨rival, hxs⟩
  clear hxs
  induction hrounds with
  | nil => simp
  | cons hx _ ih => exact List.forall_mem_cons.2 ⟨h.of_clean hx, ih⟩

theorem sepBy (h : Yields rules a P) (sep : Gram R β) (allowTrailing : Bool) :
    Yields rules (.sepBy a sep allowTrailing) fun xs => ∀ x ∈ xs, P x := by
  intro c xs d rival hxs
  rcases Parser.Clean.sepBy ⟨rival, hxs⟩ with ⟨rfl, -⟩ | ⟨x, xs, m, n, rfl, hx, hitems, -⟩
  · simp
  · refine List.forall_mem_cons.2 ⟨h.of_clean hx, ?_⟩
    clear hxs hx
    induction hitems with
    | nil => simp
    | cons _ hy _ ih => exact List.forall_mem_cons.2 ⟨h.of_clean hy, ih⟩

/-- Skipping a bracketed part leaves an error. -/
theorem orSkipBrackets (h : Yields rules a P) (b : Brackets) (placeholder : Span → α) :
    Yields rules (.orSkipBrackets a b placeholder) P :=
  fun _ _ _ rival hx => h.of_clean (Parser.Clean.orSkipBrackets ⟨rival, hx⟩)

/-- Skipping tokens leaves an error. -/
theorem orSkipTokens (h : Yields rules a P) : Yields rules (.orSkipTokens a) P :=
  fun _ _ _ rival hx => h.of_clean (Parser.Clean.orSkipTokens ⟨rival, hx⟩)

theorem pick {f : Token → Option α} (h : ∀ t x, f t = some x → P x) : Yields rules (.pick f) P := by
  intro c x d rival hx
  obtain ⟨l, -, hl⟩ := Parser.Clean.pick ⟨rival, hx⟩
  exact h _ _ hl

theorem rule {r : R α} (h : ∀ c x d rival, rules r c = ⟨[], .ok x d rival⟩ → P x) :
    Yields rules (.rule r) P := h

theorem right (hb : Yields rules b Q) : Yields rules (Gram.right a b) Q :=
  map (f := Prod.snd) ((seq (any a) hb).weaken fun _ h => h.2)

theorem left (ha : Yields rules a P) : Yields rules (Gram.left a b) P :=
  map (f := Prod.fst) ((seq ha (any b)).weaken fun _ h => h.1)

theorem between (ha : Yields rules a P) : Yields rules (Gram.between o a b) P := left (right ha)

end Yields

end Gram

end Rivulet.Grammar
