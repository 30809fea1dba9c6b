import Rivulet.Grammar.Basic

set_option autoImplicit false

/-! # What a grammar reads

Two judgements about a grammar and the tokens in front of it. `Gram.Reads` says that it reads a
value without errors and what it leaves; `Gram.Refuses` says that it fails, again without errors, so
that an alternative can be tried. There is one lemma for each way in which a form of grammar reads
or refuses. Where tokens lie in the text does not matter, so cursors are compared by their tokens
only.

Most refusals show at the first token. `Gram.outlook` computes what can be said from it alone, and
`Gram.outlook_sound` turns the answer into a refusal. -/

namespace Rivulet.Grammar

/-! ## The tokens at a cursor -/

namespace Cursor

/-- The tokens that are still to be read, wherever they lie. -/
def tokens (c : Cursor) : List Token := c.rest.map Lexeme.token

theorem next?_of_tokens_nil {c : Cursor} (h : c.tokens = []) : c.next? = none := by
  have hrest : c.rest = [] := List.map_eq_nil_iff.1 h
  unfold next?
  split
  · rfl
  · rename_i l rest hl
    rw [hrest] at hl
    cases hl

theorem next?_of_tokens_cons {c : Cursor} {t : Token} {ts : List Token} (h : c.tokens = t :: ts) :
    ∃ l c', c.next? = some (l, c') ∧ l.token = t ∧ c'.tokens = ts := by
  obtain ⟨l, rest, hrest, ht, hts⟩ := List.map_eq_cons_iff.1 h
  unfold next?
  split
  · rename_i hnil
    rw [hrest] at hnil
    cases hnil
  · rename_i l' rest' hcons
    rw [hrest] at hcons
    cases hcons
    exact ⟨l, _, rfl, ht, hts⟩

theorem rounds_eq (c : Cursor) : c.rounds = c.tokens.length + 1 := by
  have h := c.position_add
  simp only [rounds, tokens, List.length_map]
  omega

theorem head?_tokens (c : Cursor) : c.tokens.head? = c.rest.head?.map Lexeme.token := by
  simp [tokens]

end Cursor

/-! ## Replies without errors -/

theorem Reply.isClean_ok {α : Type} (a : α) (d : Cursor) (rival : Option Failure) :
    (⟨[], .ok a d rival⟩ : Reply α).isClean = true := rfl

theorem Reply.isClean_fail {α : Type} (errs : List Failure) (e : Failure) :
    (⟨errs, .fail e⟩ : Reply α).isClean = false := rfl

/-- Two failures without errors leave a failure without errors. -/
theorem Parser.choose_fail (α : Type) (x y : Failure) :
    ∃ e, Parser.choose (⟨[], .fail x⟩ : Reply α) ⟨[], .fail y⟩ = ⟨[], .fail e⟩ := by
  unfold Parser.choose
  dsimp only
  repeat' split
  all_goals exact ⟨_, rfl⟩

/-- Counting other brackets notes nothing outside of the brackets to be balanced. -/
theorem Brackets.countOthers_snd (b : Brackets) (position : Nat) (l : Lexeme) {s : Brackets.Scan}
    (hs : s.depth ≠ 1) (others : List (Token × Token)) (balances : List Int) :
    (b.countOthers position l others balances s).2 = s := by
  induction others generalizing balances with
  | nil => simp [countOthers]
  | cons p others ih =>
      cases balances with
      | nil => simp [countOthers]
      | cons n balances =>
          obtain ⟨o, c⟩ := p
          simp [countOthers, hs, ih]

/-- Nothing is skipped in front of a token that is no opening bracket. -/
theorem Brackets.recover_of_head {α : Type} (b : Brackets) (placeholder : Span → α) (e : Failure)
    {c : Cursor} (h : c.tokens.head? ≠ some b.opening) :
    b.recover placeholder [] e c = ⟨[], .fail e⟩ := by
  have hscan : b.scan c.ending c.position b.begin c.rest = (none, none) := by
    cases hc : c.rest with
    | nil => rfl
    | cons l rest =>
        have hl : l.token ≠ b.opening := by
          rw [Cursor.head?_tokens, hc] at h
          simpa using h
        have hcount := b.countOthers_snd c.position l (s := b.begin) (by simp [begin]) b.others
          b.begin.balances
        by_cases hclose : l.token = b.closing
        · rw [scan, if_neg hl, if_pos hclose]
          rfl
        · rw [scan, if_neg hl, if_neg hclose]
          simp only [hcount]
          rfl
  simp [recover, hscan]

namespace Gram

variable {R : Type → Type} {α β γ : Type}

/-! ## The judgements -/

/-- In front of the tokens `i`, the grammar reads a value with the property `P`, without errors, and
leaves the tokens `o`. -/
def Reads (rules : {α : Type} → R α → Parser α) (g : Gram R α) (i o : List Token) (P : α → Prop) :
    Prop :=
  ∀ c : Cursor, c.tokens = i →
    ∃ a d rival, g.run @rules c = ⟨[], .ok a d rival⟩ ∧ d.tokens = o ∧ P a

/-- In front of the tokens `i`, the grammar fails and has no errors to report but the failure. -/
def Refuses (rules : {α : Type} → R α → Parser α) (g : Gram R α) (i : List Token) : Prop :=
  ∀ c : Cursor, c.tokens = i → ∃ e, g.run @rules c = ⟨[], .fail e⟩

/-- In front of the tokens `i`, rounds of the grammar read a list of values and leave `o`, however
many more rounds than tokens there may be. -/
def Repeats (rules : {α : Type} → R α → Parser α) (g : Gram R α) (i o : List Token)
    (P : List α → Prop) : Prop :=
  ∀ (n : Nat) (rival : Option Failure) (c : Cursor), c.tokens = i → i.length < n →
    ∃ as d rival', Parser.manyUpTo (g.run @rules) n rival c = ⟨[], .ok as d rival'⟩ ∧
      d.tokens = o ∧ P as

variable {rules : {α : Type} → R α → Parser α} {a : Gram R α} {b : Gram R β} {o : Gram R γ}
  {P : α → Prop} {Q : β → Prop} {i m k : List Token}

/-! ## Refusing -/

namespace Refuses

theorem token {t : Token} (h : i.head? ≠ some t) : Refuses @rules (.token t) i := by
  intro c hc
  simp only [run_token, Parser.token]
  cases i with
  | nil => exact ⟨_, by rw [Cursor.next?_of_tokens_nil hc]⟩
  | cons t' ts =>
      obtain ⟨l, c', hnext, hl, -⟩ := Cursor.next?_of_tokens_cons hc
      have hne : l.token ≠ t := by
        rw [hl]
        simpa using h
      exact ⟨c.failure [some t], by simp only [hnext, if_neg hne]⟩

theorem pick {f : Token → Option α} (h : i.head?.bind f = none) : Refuses @rules (.pick f) i := by
  intro c hc
  simp only [run_pick, Parser.pick]
  cases i with
  | nil => exact ⟨_, by rw [Cursor.next?_of_tokens_nil hc]⟩
  | cons t ts =>
      obtain ⟨l, c', hnext, hl, -⟩ := Cursor.next?_of_tokens_cons hc
      have hnone : f l.token = none := by
        rw [hl]
        simpa using h
      exact ⟨c.failure [], by simp only [hnext, hnone]⟩

theorem finish (h : i ≠ []) : Refuses @rules .finish i := by
  intro c hc
  simp only [run_finish, Parser.finish]
  cases hrest : c.rest with
  | nil => exact absurd (by rw [← hc, Cursor.tokens, hrest]; rfl) h
  | cons l rest => exact ⟨_, rfl⟩

theorem seq_left (ha : Refuses @rules a i) : Refuses @rules (.seq a b) i := by
  intro c hc
  obtain ⟨e, he⟩ := ha c hc
  exact ⟨e, by simp only [run_seq, Parser.seq, he]⟩

theorem seq_right (ha : Reads @rules a i m P) (hb : Refuses @rules b m) :
    Refuses @rules (.seq a b) i := by
  intro c hc
  obtain ⟨x, d, rival, hx, hd, -⟩ := ha c hc
  obtain ⟨e, he⟩ := hb d hd
  exact ⟨e.fartherOf rival, by simp only [run_seq, Parser.seq, hx, he, List.append_nil]⟩

theorem map {f : α → β} (ha : Refuses @rules a i) : Refuses @rules (.map f a) i := by
  intro c hc
  obtain ⟨e, he⟩ := ha c hc
  exact ⟨e, by simp only [run_map, he, Reply.map, Result.map]⟩

theorem located {f : α → Span → β} (ha : Refuses @rules a i) : Refuses @rules (.located f a) i := by
  intro c hc
  obtain ⟨e, he⟩ := ha c hc
  exact ⟨e, by simp only [run_located, Parser.located, he]⟩

theorem orElse {b : Gram R α} (ha : Refuses @rules a i) (hb : Refuses @rules b i) :
    Refuses @rules (.orElse a b) i := by
  intro c hc
  obtain ⟨x, hx⟩ := ha c hc
  obtain ⟨y, hy⟩ := hb c hc
  obtain ⟨e, he⟩ := Parser.choose_fail α x y
  exact ⟨e, by
    simp only [run_orElse, Parser.orElse, hx, hy, he, Reply.isClean_fail, Bool.false_eq_true,
      if_false]⟩

/-- A bracketed part is skipped only in front of its opening bracket. -/
theorem orSkipBrackets {brackets : Brackets} {placeholder : Span → α} (ha : Refuses @rules a i)
    (h : i.head? ≠ some brackets.opening) :
    Refuses @rules (.orSkipBrackets a brackets placeholder) i := by
  intro c hc
  obtain ⟨e, he⟩ := ha c hc
  refine ⟨e, ?_⟩
  simp only [run_orSkipBrackets, Parser.orSkipBrackets, he]
  exact brackets.recover_of_head placeholder e (hc ▸ h)

/-- At the end of the text there are no tokens to skip. -/
theorem orSkipTokens (ha : Refuses @rules a []) : Refuses @rules (.orSkipTokens a) [] := by
  intro c hc
  obtain ⟨e, he⟩ := ha c hc
  have hnext := Cursor.next?_of_tokens_nil hc
  have hadvance : c.advance = c := by simp [Cursor.advance, hnext]
  refine ⟨e, ?_⟩
  simp only [run_orSkipTokens, Parser.orSkipTokens, he, hadvance, Cursor.rounds_eq, hc]
  simp [retry, he, hnext]

theorem left (ha : Refuses @rules a i) : Refuses @rules (Gram.left a b) i := ha.seq_left.map

theorem right (ha : Refuses @rules a i) : Refuses @rules (Gram.right a b) i := ha.seq_left.map

theorem between (ho : Refuses @rules o i) : Refuses @rules (Gram.between o a b) i := ho.right.left

end Refuses

/-! ## Reading -/

namespace Reads

theorem weaken {P' : α → Prop} (h : Reads @rules a i k P) (hP : ∀ x, P x → P' x) :
    Reads @rules a i k P' := by
  intro c hc
  obtain ⟨x, d, rival, hx, hd, hPx⟩ := h c hc
  exact ⟨x, d, rival, hx, hd, hP x hPx⟩

theorem token (t : Token) (k : List Token) :
    Reads @rules (.token t) (t :: k) k fun _ => True := by
  intro c hc
  obtain ⟨l, c', hnext, hl, hc'⟩ := Cursor.next?_of_tokens_cons hc
  exact ⟨t, c', none, by simp only [run_token, Parser.token, hnext, if_pos hl], hc', trivial⟩

theorem pick {f : Token → Option α} {t : Token} {x : α} (h : f t = some x) (k : List Token) :
    Reads @rules (.pick f) (t :: k) k (· = x) := by
  intro c hc
  obtain ⟨l, c', hnext, hl, hc'⟩ := Cursor.next?_of_tokens_cons hc
  have hx : f l.token = some x := hl ▸ h
  exact ⟨x, c', none, by simp only [run_pick, Parser.pick, hnext, hx], hc', rfl⟩

theorem finish : Reads @rules .finish [] [] fun _ => True := by
  intro c hc
  have hrest : c.rest = [] := List.map_eq_nil_iff.1 hc
  exact ⟨(), c, none, by simp only [run_finish, Parser.finish, hrest], hc, trivial⟩

theorem seq (ha : Reads @rules a i m P) (hb : Reads @rules b m k Q) :
    Reads @rules (.seq a b) i k fun p => P p.1 ∧ Q p.2 := by
  intro c hc
  obtain ⟨x, d, rival, hx, hd, hP⟩ := ha c hc
  obtain ⟨y, d', rival', hy, hd', hQ⟩ := hb d hd
  exact ⟨(x, y), d', Failure.merge rival rival', by
    simp only [run_seq, Parser.seq, hx, hy, List.append_nil], hd', hP, hQ⟩

theorem map {f : α → β} (ha : Reads @rules a i k fun x => Q (f x)) :
    Reads @rules (.map f a) i k Q := by
  intro c hc
  obtain ⟨x, d, rival, hx, hd, hQ⟩ := ha c hc
  exact ⟨f x, d, rival, by simp only [run_map, hx, Reply.map, Result.map], hd, hQ⟩

theorem located {f : α → Span → β} (ha : Reads @rules a i k fun x => ∀ s, Q (f x s)) :
    Reads @rules (.located f a) i k Q := by
  intro c hc
  obtain ⟨x, d, rival, hx, hd, hQ⟩ := ha c hc
  exact ⟨f x (c.spanTo d), d, rival, by simp only [run_located, Parser.located, hx], hd, hQ _⟩

theorem orElse_left {b : Gram R α} (ha : Reads @rules a i k P) :
    Reads @rules (.orElse a b) i k P := by
  intro c hc
  obtain ⟨x, d, rival, hx, hd, hP⟩ := ha c hc
  refine ⟨x, d, rival, ?_, hd, hP⟩
  simp only [run_orElse, Parser.orElse, hx, Reply.isClean_ok, if_true]

theorem orElse_right {b : Gram R α} (ha : Refuses @rules a i) (hb : Reads @rules b i k P) :
    Reads @rules (.orElse a b) i k P := by
  intro c hc
  obtain ⟨e, he⟩ := ha c hc
  obtain ⟨x, d, rival, hx, hd, hP⟩ := hb c hc
  refine ⟨x, d, rival, ?_, hd, hP⟩
  simp only [run_orElse, Parser.orElse, he, hx, Reply.isClean_fail, Reply.isClean_ok,
    Bool.false_eq_true, if_false, if_true]

theorem optional_some (ha : Reads @rules a i k P) :
    Reads @rules (.optional a) i k fun x => ∃ y, x = some y ∧ P y := by
  intro c hc
  obtain ⟨x, d, rival, hx, hd, hP⟩ := ha c hc
  exact ⟨some x, d, rival, by simp only [run_optional, Parser.optional, hx], hd, x, rfl, hP⟩

theorem optional_none (ha : Refuses @rules a i) : Reads @rules (.optional a) i i (· = none) := by
  intro c hc
  obtain ⟨e, he⟩ := ha c hc
  exact ⟨none, c, some e, by simp only [run_optional, Parser.optional, he], hc, rfl⟩

theorem orSkipBrackets {brackets : Brackets} {placeholder : Span → α} (ha : Reads @rules a i k P) :
    Reads @rules (.orSkipBrackets a brackets placeholder) i k P := by
  intro c hc
  obtain ⟨x, d, rival, hx, hd, hP⟩ := ha c hc
  exact ⟨x, d, rival, by simp only [run_orSkipBrackets, Parser.orSkipBrackets, hx], hd, hP⟩

theorem orSkipTokens (ha : Reads @rules a i k P) : Reads @rules (.orSkipTokens a) i k P := by
  intro c hc
  obtain ⟨x, d, rival, hx, hd, hP⟩ := ha c hc
  exact ⟨x, d, rival, by simp only [run_orSkipTokens, Parser.orSkipTokens, hx], hd, hP⟩

theorem left (ha : Reads @rules a i m P) (hb : Reads @rules b m k Q) :
    Reads @rules (Gram.left a b) i k P :=
  .map ((ha.seq hb).weaken fun _ h => h.1)

theorem right (ha : Reads @rules a i m P) (hb : Reads @rules b m k Q) :
    Reads @rules (Gram.right a b) i k Q :=
  .map ((ha.seq hb).weaken fun _ h => h.2)

theorem as {x : β} (ha : Reads @rules a i k P) : Reads @rules (Gram.as a x) i k (· = x) :=
  .map (ha.weaken fun _ _ => rfl)

end Reads

/-! ## Repetitions -/

namespace Repeats

/-- The rounds end where the grammar refuses. -/
theorem stop (ha : Refuses @rules a i) : Repeats @rules a i i (· = []) := by
  intro n rival c hc hn
  obtain ⟨e, he⟩ := ha c hc
  cases n with
  | zero => omega
  | succ n =>
      refine ⟨[], c, Failure.merge rival (some e), ?_, hc, rfl⟩
      simp only [Parser.manyUpTo, he]
      rfl

/-- A round reads at least one token, so that the others fit into the rounds that are left. -/
theorem step {Q : List α → Prop} (ha : Reads @rules a i m P) (hm : m.length < i.length)
    (has : Repeats @rules a m k Q) :
    Repeats @rules a i k fun xs => ∃ y ys, xs = y :: ys ∧ P y ∧ Q ys := by
  intro n rival c hc hn
  obtain ⟨x, d, rival₁, hx, hd, hP⟩ := ha c hc
  cases n with
  | zero => omega
  | succ n =>
      obtain ⟨xs, d', rival₂, hxs, hd', hQ⟩ :=
        has n (Failure.merge rival rival₁) d hd (by omega)
      exact ⟨x :: xs, d', rival₂, by simp only [Parser.manyUpTo, hx, hxs, Result.map]; rfl, hd',
        x, xs, rfl, hP, hQ⟩

/-- A list of items, written one after the other, is read item by item. -/
theorem each {ι δ : Type} {print : ι → List Token} {view : α → δ} {seen : ι → δ} {items : List ι}
    (hitem : ∀ x ∈ items, ∀ k, Reads @rules a (print x ++ k) k fun y => view y = seen x)
    (hprint : ∀ x ∈ items, print x ≠ []) (hstop : Refuses @rules a k) :
    Repeats @rules a (items.flatMap print ++ k) k fun ys => ys.map view = items.map seen := by
  induction items with
  | nil =>
      intro n rival c hc hn
      obtain ⟨ys, d, rival', hys, hd, rfl⟩ := stop hstop n rival c hc hn
      exact ⟨[], d, rival', hys, hd, rfl⟩
  | cons x items ih =>
      have hrest := ih (fun y hy => hitem y (List.mem_cons_of_mem _ hy))
        (fun y hy => hprint y (List.mem_cons_of_mem _ hy))
      have hpos : 0 < (print x).length := List.length_pos_iff.2 (hprint x (by simp))
      have hfirst := hitem x (by simp) (items.flatMap print ++ k)
      intro n rival c hc hn
      rw [List.flatMap_cons, List.append_assoc] at hc hn
      obtain ⟨ys, d, rival', hys, hd, y, ys', rfl, hy, hys'⟩ :=
        step hfirst (by simp only [List.length_append]; omega) hrest n rival c hc hn
      exact ⟨y :: ys', d, rival', hys, hd, by simp only [List.map_cons, hy, hys']⟩

end Repeats

theorem Reads.many {P : List α → Prop} (h : Repeats @rules a i k P) :
    Reads @rules (.many a) i k P := by
  intro c hc
  exact h c.rounds none c hc (by rw [Cursor.rounds_eq, hc]; omega)

/-! ## Repetitions with separators -/

/-- A list of parts with a token between them starts with the first part. -/
theorem intercalate_cons (t : Token) (x : List Token) (xs : List (List Token)) :
    [t].intercalate (x :: xs) = x ++ xs.flatMap (t :: ·) := by
  induction xs generalizing x with
  | nil => simp
  | cons y xs ih =>
      rw [List.intercalate_cons_cons, ih y, List.flatMap_cons]
      simp

section SepBy

variable {ι δ : Type} {t : Token} {Follow : List Token → Prop} {print : ι → List Token}
  {view : α → δ} {seen : ι → δ}

/-- A list without items is read where no item is. -/
theorem Reads.sepBy_nil {allowTrailing : Bool} (hstop : Refuses @rules a k) :
    Reads @rules (.sepBy a b allowTrailing) k k (· = []) := by
  intro c hc
  obtain ⟨e, he⟩ := hstop c hc
  exact ⟨[], c, some e, by simp only [run_sepBy, Parser.sepBy, he], hc, rfl⟩

/-- How the rounds of a repetition with separators end. -/
theorem moreUpTo_stop (hk : k.head? ≠ some t ∨ ∃ m, k = t :: m ∧ Refuses @rules a m) (n : Nat)
    (rival : Option Failure) {c : Cursor} (hc : c.tokens = k) :
    ∃ e rival', Parser.moreUpTo (a.run @rules) (Parser.token t) (n + 1) rival c
      = ⟨[], .ok ([], some e) c rival'⟩ := by
  rcases hk with hk | ⟨m, rfl, hm⟩
  · -- there is no other separator
    have hsep : Refuses @rules (.token t) k := .token hk
    obtain ⟨e, he⟩ := hsep c hc
    rw [run_token] at he
    exact ⟨e, rival, by simp only [Parser.moreUpTo, he]⟩
  · -- there is one, but no item behind it
    have hsep : Reads @rules (.token t) (t :: m) m fun _ => True := .token t m
    obtain ⟨s, d, rival', hs, hd, -⟩ := hsep c hc
    obtain ⟨e, he⟩ := hm d hd
    rw [run_token] at hs
    exact ⟨e, Failure.merge rival rival', by simp only [Parser.moreUpTo, hs, he, List.append_nil]⟩

/-- Items with a separator in front of each are read item by item. -/
theorem moreUpTo_each (hk : k.head? ≠ some t ∨ ∃ m, k = t :: m ∧ Refuses @rules a m)
    {items : List ι}
    (hitem : ∀ x ∈ items, ∀ k, Follow k → Reads @rules a (print x ++ k) k fun y => view y = seen x)
    (hsep : ∀ k, Follow (t :: k)) (hend : Follow k) :
    ∀ (n : Nat) (rival : Option Failure) (c : Cursor),
      c.tokens = items.flatMap (fun x => t :: print x) ++ k → c.tokens.length < n →
        ∃ ys e d rival', Parser.moreUpTo (a.run @rules) (Parser.token t) n rival c
            = ⟨[], .ok (ys, e) d rival'⟩ ∧
          d.tokens = k ∧ ys.map view = items.map seen := by
  induction items with
  | nil =>
      intro n rival c hc hn
      cases n with
      | zero => omega
      | succ n =>
          obtain ⟨e, rival', he⟩ := moreUpTo_stop hk n rival hc
          exact ⟨[], some e, c, rival', he, hc, rfl⟩
  | cons x items ih =>
      intro n rival c hc hn
      -- what stands behind an item is a separator or the end of the list
      have hfollow : Follow (items.flatMap (fun x => t :: print x) ++ k) := by
        cases items with
        | nil => exact hend
        | cons y items => exact hsep _
      cases n with
      | zero => omega
      | succ n =>
          have hc' : c.tokens = t :: (print x ++ (items.flatMap (fun x => t :: print x) ++ k)) := by
            rw [hc]
            simp
          have htoken : ∀ m, Reads @rules (.token t) (t :: m) m fun _ => True := .token t
          obtain ⟨s, d₁, rival₁, hs, hd₁, -⟩ := htoken _ c hc'
          obtain ⟨y, d₂, rival₂, hy, hd₂, hview⟩ := hitem x (by simp) _ hfollow d₁ hd₁
          have hlt : d₂.tokens.length < n := by
            rw [hc', List.length_cons, List.length_append] at hn
            rw [hd₂]
            omega
          obtain ⟨ys, e, d, rival', hys, hd, hviews⟩ :=
            ih (fun y hy => hitem y (List.mem_cons_of_mem _ hy)) n
              (Failure.merge (Failure.merge rival rival₁) rival₂) d₂ hd₂ hlt
          rw [run_token] at hs
          refine ⟨y :: ys, e, d, rival', ?_, hd, by simp only [List.map_cons, hview, hviews]⟩
          simp only [Parser.moreUpTo, hs, hy, hys, Result.map, List.append_nil]

/-- The items of a list, up to where the rounds end. -/
theorem sepBy_each {items : List ι} {x : ι}
    (hk : k.head? ≠ some t ∨ ∃ m, k = t :: m ∧ Refuses @rules a m)
    (hitem : ∀ y ∈ x :: items, ∀ k, Follow k →
      Reads @rules a (print y ++ k) k fun z => view z = seen y)
    (hsep : ∀ k, Follow (t :: k)) (hend : Follow k) {c : Cursor}
    (hc : c.tokens = [t].intercalate ((x :: items).map print) ++ k) :
    ∃ y ys e d d' rival rival', a.run @rules c = ⟨[], .ok y d rival⟩ ∧
      Parser.moreUpTo (a.run @rules) (Parser.token t) d.rounds rival d
        = ⟨[], .ok (ys, e) d' rival'⟩ ∧
      d'.tokens = k ∧ (y :: ys).map view = (x :: items).map seen := by
  rw [List.map_cons, intercalate_cons, List.flatMap_map, List.append_assoc] at hc
  have hfollow : Follow (items.flatMap (fun x => t :: print x) ++ k) := by
    cases items with
    | nil => exact hend
    | cons y items => exact hsep _
  obtain ⟨y, d, rival, hy, hd, hview⟩ := hitem x (by simp) _ hfollow c hc
  obtain ⟨ys, e, d', rival', hys, hd', hviews⟩ :=
    moreUpTo_each hk (fun y hy => hitem y (List.mem_cons_of_mem _ hy)) hsep hend d.rounds rival
      d hd (by rw [Cursor.rounds_eq]; omega)
  exact ⟨y, ys, e, d, d', rival, rival', hy, hys, hd', by simp only [List.map_cons, hview, hviews]⟩

/-- A list of items with a token between them is read item by item, if each item is read in front of
that token and in front of what follows the list. -/
theorem Reads.sepBy {allowTrailing : Bool} {items : List ι} (hk : k.head? ≠ some t)
    (hitem : ∀ x ∈ items, ∀ k, Follow k → Reads @rules a (print x ++ k) k fun y => view y = seen x)
    (hsep : ∀ k, Follow (t :: k)) (hend : Follow k) (hstop : Refuses @rules a k) :
    Reads @rules (.sepBy a (.token t) allowTrailing) ([t].intercalate (items.map print) ++ k) k
      fun ys => ys.map view = items.map seen := by
  intro c hc
  cases items with
  | nil => exact (Reads.sepBy_nil hstop).weaken (fun _ h => by rw [h]; rfl) c hc
  | cons x items =>
      obtain ⟨y, ys, e, d, d', rival, rival', hy, hys, hd', hviews⟩ :=
        sepBy_each (.inl hk) hitem hsep hend hc
      have hlast : Refuses @rules (.token t) k := .token hk
      obtain ⟨f, hf⟩ := hlast d' hd'
      have htrailing : Parser.trailing (Parser.token t) rival' d'
          = (d', Failure.merge rival' (some f)) := by
        rw [run_token] at hf
        simp only [Parser.trailing, hf]
      cases allowTrailing with
      | false =>
          refine ⟨y :: ys, d', Failure.merge rival' e, ?_, hd', hviews⟩
          simp only [run_sepBy, run_token, Parser.sepBy, hy, hys, Bool.false_eq_true, if_false,
            List.append_nil]
      | true =>
          refine ⟨y :: ys, d', Failure.merge (Failure.merge rival' (some f)) e, ?_, hd', hviews⟩
          simp only [run_sepBy, run_token, Parser.sepBy, hy, hys, htrailing, if_true,
            List.append_nil]

/-- A separator behind the items is read with them, also if something else follows it. -/
theorem Reads.sepBy_trailing {items : List ι} {x : ι}
    (hitem : ∀ y ∈ x :: items, ∀ k, Follow k →
      Reads @rules a (print y ++ k) k fun z => view z = seen y)
    (hsep : ∀ k, Follow (t :: k)) (hstop : Refuses @rules a k) :
    Reads @rules (.sepBy a (.token t) true) ([t].intercalate ((x :: items).map print) ++ t :: k) k
      fun ys => ys.map view = (x :: items).map seen := by
  intro c hc
  obtain ⟨y, ys, e, d, d', rival, rival', hy, hys, hd', hviews⟩ :=
    sepBy_each (.inr ⟨k, rfl, hstop⟩) hitem hsep (hsep k) hc
  have hlast : Reads @rules (.token t) (t :: k) k fun _ => True := .token t k
  obtain ⟨s, d'', rival'', hs, hd'', -⟩ := hlast d' hd'
  have htrailing : Parser.trailing (Parser.token t) rival' d'
      = (d'', Failure.merge rival' rival'') := by
    rw [run_token] at hs
    simp only [Parser.trailing, hs]
  refine ⟨y :: ys, d'', Failure.merge (Failure.merge rival' rival'') e, ?_, hd'', hviews⟩
  simp only [run_sepBy, run_token, Parser.sepBy, hy, hys, htrailing, if_true, List.append_nil]

end SepBy

/-! ## The first token -/

/-- What can be said about a grammar from the first token alone. -/
inductive Outlook where
  /-- It refuses. -/
  | refuses
  /-- It reads nothing, and goes on. -/
  | skips
  | unknown
deriving DecidableEq

/-- What can be said about a grammar in front of the token `t`, or at the end of the text if there
is none, given as much about the rules. -/
def outlook (rules : {α : Type} → R α → Outlook) (t : Option Token) :
    {α : Type} → Gram R α → Outlook
  | _, .token t' => if t = some t' then .unknown else .refuses
  | _, .pick f => if (t.bind f).isNone then .refuses else .unknown
  | _, .finish => if t = none then .unknown else .refuses
  | _, .seq a b =>
      match outlook rules t a with
      | .refuses => .refuses
      | .skips => outlook rules t b
      | .unknown => .unknown
  | _, .map _ a => outlook rules t a
  | _, .orElse a b =>
      if outlook rules t a = .refuses ∧ outlook rules t b = .refuses then .refuses else .unknown
  | _, .optional a => if outlook rules t a = .refuses then .skips else .unknown
  | _, .many a => if outlook rules t a = .refuses then .skips else .unknown
  | _, .sepBy item _ _ => if outlook rules t item = .refuses then .skips else .unknown
  | _, .located _ a => outlook rules t a
  | _, .orSkipBrackets a b _ =>
      if outlook rules t a = .refuses ∧ t ≠ some b.opening then .refuses else .unknown
  | _, .orSkipTokens a => if outlook rules t a = .refuses ∧ t = none then .refuses else .unknown
  | _, .rule r => rules r
termination_by structural _ a => a

/-- The first token does not mislead: a grammar that is said to refuse does, and one that is said to
skip reads nothing. -/
theorem outlook_sound (known : {α : Type} → R α → Outlook)
    (hrefuses : ∀ {α : Type} (r : R α), known r = .refuses → Refuses @rules (.rule r) i)
    (hskips : ∀ {α : Type} (r : R α), known r = .skips → Reads @rules (.rule r) i i fun _ => True)
    {α : Type} (g : Gram R α) :
    (g.outlook known i.head? = .refuses → Refuses @rules g i) ∧
      (g.outlook known i.head? = .skips → Reads @rules g i i fun _ => True) := by
  induction g with
  | token t =>
      simp only [outlook]
      split
      · simp
      · rename_i h
        exact ⟨fun _ => .token h, by simp⟩
  | pick f =>
      simp only [outlook]
      split
      · rename_i h
        exact ⟨fun _ => .pick (Option.isNone_iff_eq_none.1 h), by simp⟩
      · simp
  | finish =>
      simp only [outlook]
      split
      · simp
      · rename_i h
        exact ⟨fun _ => .finish (by rintro rfl; exact h rfl), by simp⟩
  | seq a b iha ihb =>
      simp only [outlook]
      split
      · rename_i h
        exact ⟨fun _ => .seq_left (iha.1 h), by simp⟩
      · -- the first part reads nothing, so the token is still there for the second
        rename_i h
        exact ⟨fun hb => .seq_right (iha.2 h) (ihb.1 hb),
          fun hb => ((iha.2 h).seq (ihb.2 hb)).weaken fun _ _ => trivial⟩
      · simp
  | map f a ih => exact ⟨fun h => .map (ih.1 h), fun h => .map (ih.2 h)⟩
  | orElse a b iha ihb =>
      simp only [outlook]
      split
      · rename_i h
        exact ⟨fun _ => .orElse (iha.1 h.1) (ihb.1 h.2), by simp⟩
      · simp
  | optional a ih =>
      simp only [outlook]
      split
      · rename_i h
        exact ⟨by simp, fun _ => (Reads.optional_none (ih.1 h)).weaken fun _ _ => trivial⟩
      · simp
  | many a ih =>
      simp only [outlook]
      split
      · rename_i h
        exact ⟨by simp, fun _ => (Reads.many (.stop (ih.1 h))).weaken fun _ _ => trivial⟩
      · simp
  | sepBy item sep trailing ih _ =>
      simp only [outlook]
      split
      · rename_i h
        exact ⟨by simp, fun _ => (Reads.sepBy_nil (ih.1 h)).weaken fun _ _ => trivial⟩
      · simp
  | located f a ih =>
      exact ⟨fun h => .located (ih.1 h),
        fun h => .located ((ih.2 h).weaken fun _ _ _ => trivial)⟩
  | orSkipBrackets a b placeholder ih =>
      simp only [outlook]
      split
      · rename_i h
        exact ⟨fun _ => .orSkipBrackets (ih.1 h.1) h.2, by simp⟩
      · simp
  | orSkipTokens a ih =>
      simp only [outlook]
      split
      · rename_i h
        obtain ⟨ha, hi⟩ := h
        obtain rfl := List.head?_eq_none_iff.1 hi
        exact ⟨fun _ => .orSkipTokens (ih.1 ha), by simp⟩
      · simp
  | rule r => exact ⟨hrefuses r, hskips r⟩

end Gram

end Rivulet.Grammar
