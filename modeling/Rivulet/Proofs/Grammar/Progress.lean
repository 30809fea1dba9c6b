import Rivulet.Proofs.Grammar.Behaviour
import Rivulet.Proofs.Grammar.Derivations

set_option autoImplicit false

/-! # How much a success reads

`Gram.minTokens` computes from a grammar alone a number of tokens that every success reads at least,
given that every rule reads one. `Gram.Runs.reads` is its soundness. A success by recovery is no
exception: a skipped bracketed part has its opening bracket at least, and a place that was searched
for lies behind the start. -/

namespace Rivulet.Grammar

/-! ## Cursors of one text -/

namespace Cursor

/-- The cursor `d` stands in the same text as `c`, at least `k` tokens farther on. -/
structure Apart (c : Cursor) (k : Nat) (d : Cursor) : Prop where
  position : c.position + k ≤ d.position
  total : d.total = c.total

theorem Apart.refl (c : Cursor) : c.Apart 0 c := ⟨Nat.le_refl _, rfl⟩

theorem Apart.trans {c d e : Cursor} {k l : Nat} (h : c.Apart k d) (h' : d.Apart l e) :
    c.Apart (k + l) e := by
  have h₁ := h.position
  have h₂ := h'.position
  exact ⟨by omega, h'.total.trans h.total⟩

theorem Apart.weaken {c d : Cursor} {k l : Nat} (h : c.Apart k d) (hle : l ≤ k) : c.Apart l d :=
  ⟨Nat.le_trans (Nat.add_le_add_left hle _) h.position, h.total⟩

/-- What is read is no longer to be read. -/
theorem Apart.length_rest {c d : Cursor} {k : Nat} (h : c.Apart k d) :
    d.rest.length + k ≤ c.rest.length := by
  have hc := c.position_add
  have hd := d.position_add
  have hposition := h.position
  have htotal := h.total
  omega

theorem apart_of_next? {c d : Cursor} {l : Lexeme} (h : c.next? = some (l, d)) : c.Apart 1 d := by
  unfold next? at h
  split at h
  · cases h
  · cases h
    exact ⟨Nat.le_refl _, rfl⟩

theorem rounds_eq_length (c : Cursor) : c.rounds = c.rest.length + 1 := by
  have h := c.position_add
  unfold rounds
  omega

theorem exists_next? {c : Cursor} (h : 0 < c.rest.length) : ∃ l d, c.next? = some (l, d) := by
  unfold next?
  split
  · rename_i hrest
    rw [hrest] at h
    cases h
  · exact ⟨_, _, rfl⟩

theorem apart_advance (c : Cursor) : c.Apart 0 c.advance := by
  unfold advance
  split
  · rename_i hnext
    exact (apart_of_next? hnext).weaken (Nat.zero_le 1)
  · exact .refl c

theorem apart_advanceBy {n : Nat} {c : Cursor} (hn : n ≤ c.rest.length) :
    c.Apart n (c.advanceBy n) := by
  induction n generalizing c with
  | zero => exact .refl c
  | succ n ih =>
      obtain ⟨l, d, hnext⟩ := exists_next? (Nat.lt_of_lt_of_le (Nat.succ_pos n) hn)
      have hlength : n ≤ d.rest.length := by
        rw [(of_next? hnext).1, List.length_cons] at hn
        omega
      have hadvance : c.advance = d := by simp only [advance, hnext]
      rw [advanceBy, hadvance]
      exact ((apart_of_next? hnext).trans (ih hlength)).weaken (by omega)

end Cursor

/-! ## Skipped bracketed parts -/

/-- A bracketed part that is skipped has a token at least, and lies within the text. -/
theorem Brackets.scan_bounds (b : Brackets) (ending : Span) {n : Nat} :
    ∀ {ls : List Lexeme} {position : Nat} {s : Brackets.Scan},
      (b.scan ending position s ls).1 = some n → 1 ≤ n ∧ n ≤ ls.length := by
  intro ls
  induction ls generalizing n with
  | nil =>
      intro position s h
      cases h
  | cons l ls ih =>
      -- what is found one token farther on is one token longer from here
      have farther : ∀ (position : Nat) (s : Brackets.Scan),
          (b.scan ending position s ls).1.map (· + 1) = some n → 1 ≤ n ∧ n ≤ (l :: ls).length := by
        intro position s h
        obtain ⟨m, hm, rfl⟩ := Option.map_eq_some_iff.1 h
        have hbounds := ih hm
        rw [List.length_cons]
        omega
      intro position s h
      rw [scan] at h
      split at h
      · exact farther _ _ h
      · split at h
        · split at h
          · -- the closing bracket itself
            have hn : 1 = n := by
              split at h
              · exact Option.some.inj h
              · cases h
            rw [List.length_cons]
            omega
          · exact farther _ _ h
        · dsimp only at h
          split at h
          · cases h
          · exact farther _ _ h

/-! ## What a combinator has read -/

theorem Result.map_eq_ok {α β : Type} {f : α → β} {r : Result α} {b : β} {d : Cursor}
    {rival : Option Failure} (h : r.map f = .ok b d rival) : ∃ a, r = .ok a d rival := by
  cases r with
  | ok a c rival' =>
      cases h
      exact ⟨a, rfl⟩
  | fail e => cases h

namespace Parser

variable {α β : Type} {p : Parser α} {q : Parser β} {c d : Cursor} {rival : Option Failure}

theorem token_apart {t t' : Token} (h : (Parser.token t c).result = .ok t' d rival) :
    c.Apart 1 d := by
  unfold token at h
  split at h
  · rename_i hnext
    split at h
    · cases h
      exact Cursor.apart_of_next? hnext
    · cases h
  · cases h

theorem pick_apart {f : Token → Option α} {a : α} (h : (Parser.pick f c).result = .ok a d rival) :
    c.Apart 1 d := by
  unfold pick at h
  split at h
  · rename_i hnext
    split at h
    · cases h
      exact Cursor.apart_of_next? hnext
    · cases h
  · cases h

theorem finish_apart {u : Unit} (h : (Parser.finish c).result = .ok u d rival) : c.Apart 0 d := by
  unfold finish at h
  split at h
  · cases h
    exact .refl c
  · cases h

theorem seq_ok {v : α × β} (h : (Parser.seq p q c).result = .ok v d rival) :
    ∃ m rival₁ rival₂, (p c).result = .ok v.1 m rival₁ ∧ (q m).result = .ok v.2 d rival₂ := by
  unfold seq at h
  split at h
  · cases h
  · rename_i errs a m rival₁ hp
    split at h
    · cases h
    · rename_i errs' b d' rival₂ hq
      cases h
      exact ⟨m, rival₁, rival₂, by rw [hp], by rw [hq]⟩

/-- A chosen value is that of one of the two replies. -/
theorem choose_ok {x y : Reply α} {a : α} (h : (choose x y).result = .ok a d rival) :
    ∃ rival', x.result = .ok a d rival' ∨ y.result = .ok a d rival' := by
  have key : ∀ (z : Reply α) (other : Option Failure), z.result.addRival other = .ok a d rival →
      ∃ rival', z.result = .ok a d rival' := by
    intro z other hz
    cases hres : z.result with
    | ok a' d' rival' =>
        rw [hres] at hz
        cases hz
        exact ⟨rival', rfl⟩
    | fail e =>
        rw [hres] at hz
        cases hz
  have left : ∀ other, x.result.addRival other = .ok a d rival →
      ∃ rival', x.result = .ok a d rival' ∨ y.result = .ok a d rival' :=
    fun other hx => (key x other hx).imp fun _ => Or.inl
  have right : ∀ other, y.result.addRival other = .ok a d rival →
      ∃ rival', x.result = .ok a d rival' ∨ y.result = .ok a d rival' :=
    fun other hy => (key y other hy).imp fun _ => Or.inr
  unfold choose at h
  repeat' split at h
  all_goals first
    | exact left _ h
    | exact right _ h
    | cases h

theorem orElse_ok {q : Parser α} {a : α} (h : (Parser.orElse p q c).result = .ok a d rival) :
    (∃ rival', (p c).result = .ok a d rival') ∨
      (p c).isClean = false ∧ ∃ rival', (q c).result = .ok a d rival' := by
  unfold orElse at h
  dsimp only at h
  split at h
  · exact .inl ⟨rival, h⟩
  · rename_i hdirty
    have hclean : (p c).isClean = false := Bool.eq_false_iff.2 hdirty
    split at h
    · exact .inr ⟨hclean, rival, h⟩
    · obtain ⟨rival', hp | hq⟩ := choose_ok h
      · exact .inl ⟨rival', hp⟩
      · exact .inr ⟨hclean, rival', hq⟩

theorem optional_ok {o : Option α} (h : (Parser.optional p c).result = .ok o d rival) :
    d = c ∨ ∃ a rival', (p c).result = .ok a d rival' := by
  unfold optional at h
  split at h
  · rename_i errs a d' rival' hp
    cases h
    exact .inr ⟨a, rival, by rw [hp]⟩
  · cases h
    exact .inl rfl

theorem located_ok {f : α → Span → β} {b : β}
    (h : (Parser.located f p c).result = .ok b d rival) : ∃ a, (p c).result = .ok a d rival := by
  unfold located at h
  split at h
  · rename_i errs a d' rival' hp
    cases h
    exact ⟨a, by rw [hp]⟩
  · cases h

/-- Behind a bracketed part that fits or is skipped. -/
theorem orSkipBrackets_ok {b : Brackets} {placeholder : Span → α} {a : α}
    (h : (Parser.orSkipBrackets p b placeholder c).result = .ok a d rival) :
    (p c).result = .ok a d rival ∨ c.Apart 1 d := by
  unfold orSkipBrackets at h
  split at h
  · rename_i errs a' d' rival' hp
    rw [hp]
    exact .inl h
  · unfold Brackets.recover at h
    dsimp only at h
    split at h
    · cases h
    · rename_i n hscan
      have hbounds := b.scan_bounds c.ending hscan
      cases h
      exact .inr ((Cursor.apart_advanceBy hbounds.2).weaken hbounds.1)

/-- The separator behind the last item does not lead back. -/
theorem trailing_apart (h : ∀ a d rival, (p c).result = .ok a d rival → c.Apart 0 d)
    (rival : Option Failure) : c.Apart 0 (trailing p rival c).1 := by
  unfold trailing
  split
  · rename_i hp
    exact h _ _ _ hp
  · exact .refl c

end Parser

/-! ## Loops -/

namespace Behaviour

variable {α β : Type}

/-- Every success reads at least `k` tokens. -/
def Reads (k : Nat) (S : Behaviour α) : Prop :=
  ∀ ⦃c : Cursor⦄ ⦃r : Reply α⦄, S c r →
    ∀ ⦃a : α⦄ ⦃d : Cursor⦄ ⦃rival : Option Failure⦄, r.result = .ok a d rival → c.Apart k d

namespace Reads

variable {S : Behaviour α} {T : Behaviour β} {k l : Nat}

theorem weaken (h : S.Reads k) (hle : l ≤ k) : S.Reads l :=
  fun _ _ hr _ _ _ hres => (h hr hres).weaken hle

theorem rounds (h : S.Reads k) (rival : Option Failure) : (Rounds S rival).Reads 0 := by
  intro c r hr
  induction hr with
  | stop _ =>
      intro as d rival hres
      cases hres
      exact .refl _
  | next body _ _ ih =>
      intro as d rival hres
      obtain ⟨as', hmore⟩ := Result.map_eq_ok hres
      exact ((h body rfl).trans (ih hmore)).weaken (Nat.zero_le _)

theorem turns (h : S.Reads k) (hT : T.Reads l) (rival : Option Failure) :
    (Turns S T rival).Reads 0 := by
  intro c r hr
  induction hr with
  | separatorFails _ | itemFails _ _ =>
      intro as d rival hres
      cases hres
      exact .refl _
  | next separator item _ _ ih =>
      intro as d rival hres
      obtain ⟨as', hmore⟩ := Result.map_eq_ok hres
      exact (((hT separator rfl).trans (h item rfl)).trans (ih hmore)).weaken (Nat.zero_le _)

theorem trails (hT : T.Reads l) {allowTrailing : Bool} {rival : Option Failure} {c : Cursor}
    {last : Cursor × Option Failure} (h : Trails T allowTrailing rival c last) :
    c.Apart 0 last.1 := by
  unfold Trails at h
  split at h
  · obtain ⟨x, hx, rfl⟩ := h
    exact Parser.trailing_apart (fun _ _ _ hres => (hT hx hres).weaken (Nat.zero_le l)) rival
  · rw [h]
    exact .refl c

theorem separated (h : S.Reads k) (hT : T.Reads l) (allowTrailing : Bool) :
    (Separated S T allowTrailing).Reads 0 := by
  intro c r hr as d rival hres
  cases hr with
  | none _ =>
      cases hres
      exact .refl c
  | some head tail trails =>
      cases hres
      have hitems := (h head rfl).trans (h.turns hT _ tail rfl)
      exact (hitems.trans (hT.trails trails)).weaken (Nat.zero_le _)

theorem search (h : S.Reads k) (errors : List Failure) (failure : Failure) :
    (Search S errors failure).Reads k := by
  intro c r hr
  induction hr with
  | found body =>
      intro a d rival hres
      cases hres
      exact h body rfl
  | skip _ skipped _ ih =>
      intro a d rival hres
      exact ((Cursor.apart_of_next? skipped).trans (ih hres)).weaken (Nat.le_add_left k 1)
  | exhausted _ _ =>
      intro a d rival hres
      cases hres

theorem orSearch (h : S.Reads k) : (OrSearch S).Reads k := by
  intro c r hr a d rival hres
  cases hr with
  | found body => exact h body hres
  | search _ more =>
      have hbehind := h.search _ _ more hres
      exact ((Cursor.apart_advance c).trans hbehind).weaken (Nat.le_add_left k 0)

end Reads

end Behaviour

/-! ## Grammars -/

namespace Gram

variable {R : Type → Type} {α : Type}

/-- A number of tokens that every success of a grammar reads at least, if each rule reads one. -/
def minTokens : {α : Type} → Gram R α → Nat
  | _, .token _ | _, .pick _ | _, .rule _ => 1
  | _, .finish | _, .optional _ | _, .many _ | _, .sepBy _ _ _ => 0
  | _, .seq a b => a.minTokens + b.minTokens
  | _, .orElse a b => min a.minTokens b.minTokens
  | _, .map _ a | _, .located _ a | _, .orSkipTokens a => a.minTokens
  | _, .orSkipBrackets a _ _ => min a.minTokens 1
termination_by structural _ a => a

/-- **A success reads as many tokens as its grammar says**, by recovery or without. -/
theorem Runs.reads {rules : {α : Type} → R α → Behaviour α}
    (h : ∀ {α : Type} (q : R α), (rules q).Reads 1) (g : Gram R α) :
    (g.Runs rules).Reads g.minTokens := by
  induction g with
  | token t =>
      rintro c r rfl a d rival hres
      exact Parser.token_apart hres
  | pick f =>
      rintro c r rfl a d rival hres
      exact Parser.pick_apart hres
  | finish =>
      rintro c r rfl a d rival hres
      exact Parser.finish_apart hres
  | seq a b iha ihb =>
      rintro c r ⟨x, y, hx, hy, rfl⟩ v d rival hres
      obtain ⟨m, rival₁, rival₂, hfirst, hsecond⟩ := Parser.seq_ok hres
      exact (iha hx hfirst).trans (ihb (hy _ _ _ hfirst) hsecond)
  | map f a ih =>
      rintro c r ⟨x, hx, rfl⟩ v d rival hres
      obtain ⟨v', hv⟩ := Result.map_eq_ok hres
      exact ih hx hv
  | orElse a b iha ihb =>
      rintro c r ⟨x, y, hx, hy, rfl⟩ v d rival hres
      rcases Parser.orElse_ok hres with ⟨rival', hfirst⟩ | ⟨hdirty, rival', hsecond⟩
      · exact (iha hx hfirst).weaken (Nat.min_le_left _ _)
      · exact (ihb (hy hdirty) hsecond).weaken (Nat.min_le_right _ _)
  | optional a ih =>
      rintro c r ⟨x, hx, rfl⟩ v d rival hres
      rcases Parser.optional_ok hres with rfl | ⟨v', rival', hv⟩
      · exact .refl d
      · exact (ih hx hv).weaken (Nat.zero_le _)
  | many a ih => exact ih.rounds none
  | sepBy item sep allowTrailing ihitem ihsep => exact ihitem.separated ihsep allowTrailing
  | located f a ih =>
      rintro c r ⟨x, hx, rfl⟩ v d rival hres
      obtain ⟨v', hv⟩ := Parser.located_ok hres
      exact ih hx hv
  -- recovery succeeds only over brackets, so it has read one token at least
  | orSkipBrackets a b placeholder ih =>
      rintro c r ⟨x, hx, rfl⟩ v d rival hres
      rcases Parser.orSkipBrackets_ok hres with hv | hskipped
      · exact (ih hx hv).weaken (Nat.min_le_left _ _)
      · exact hskipped.weaken (Nat.min_le_right _ _)
  | orSkipTokens a ih => exact ih.orSearch
  | rule q => exact h q

end Gram

end Rivulet.Grammar
