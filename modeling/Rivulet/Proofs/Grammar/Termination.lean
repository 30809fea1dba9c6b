import Rivulet.Proofs.Grammar.Progress

set_option autoImplicit false

/-! # Every run ends

A run of a grammar can fail to end in two ways: a loop can go on without reading anything, and a rule
can come back to itself without reading anything. Both can be excluded by looking at the grammar.

* `Gram.loopsRead`: the body of every loop reads a token, so a loop has no more rounds than there are
  tokens;
* `Gram.startsBelow`: the rules that a grammar can start with have a lower level than a given one. If
  every rule starts with rules below its own level only, then nesting either reads a token or
  descends.

`Guarded` collects these conditions for the bodies of all rules. Under them the bounds that the
parser counts to are never reached: at every cursor a run ends, and what it ends with is the reply of
the parser (`runsTo_iff`). -/

namespace Rivulet.Grammar

/-! ## Loops end

Each lemma compares a loop with the counting loop of the parser: as long as the count is larger than
the number of tokens that are left, the count does not matter. -/

namespace Behaviour

variable {α β : Type} {S : Behaviour α} {T : Behaviour β} {p : Parser α} {q : Parser β} {k l : Nat}

theorem Rounds.of_manyUpTo (hS : S.Reads 1) {N : Nat}
    (hp : ∀ c : Cursor, c.rest.length ≤ N → S c (p c)) {n : Nat} {rival : Option Failure} {c : Cursor}
    (hc : c.rest.length ≤ N) (hn : c.rest.length < n) :
    Rounds S rival c (Parser.manyUpTo p n rival c) := by
  induction n generalizing rival c with
  | zero => cases hn
  | succ n ih =>
      have hrun := hp c hc
      unfold Parser.manyUpTo
      split
      · rename_i errs a d rival' hd
        rw [hd] at hrun
        have hapart := hS hrun rfl
        have hlength := hapart.length_rest
        exact .next hrun hapart.position (ih (by omega) (by omega))
      · rename_i errs e he
        rw [he] at hrun
        exact .stop hrun

theorem Turns.of_moreUpTo (hS : S.Reads k) (hT : T.Reads l) (hkl : 1 ≤ k + l) {N : Nat}
    (hp : ∀ c : Cursor, c.rest.length ≤ N → S c (p c))
    (hq : ∀ c : Cursor, c.rest.length ≤ N → T c (q c)) {n : Nat} {rival : Option Failure}
    {c : Cursor} (hc : c.rest.length ≤ N) (hn : c.rest.length < n) :
    Turns S T rival c (Parser.moreUpTo p q n rival c) := by
  induction n generalizing rival c with
  | zero => cases hn
  | succ n ih =>
      have hsep := hq c hc
      unfold Parser.moreUpTo
      split
      · rename_i errs e he
        rw [he] at hsep
        exact .separatorFails hsep
      · rename_i errs b d rival' hd
        rw [hd] at hsep
        -- either of the two reads something, so the tokens run out before the rounds do
        have hapart := hT hsep rfl
        have hlength := hapart.length_rest
        have hitem := hp d (by omega)
        split
        · rename_i errs' e he
          rw [he] at hitem
          exact .itemFails hsep hitem
        · rename_i errs' a d' rival'' hd'
          rw [hd'] at hitem
          have hboth := hapart.trans (hS hitem rfl)
          have hposition := hboth.position
          have hlength' := hboth.length_rest
          exact .next hsep hitem (by omega) (ih (by omega) (by omega))

/-- The items behind the first never fail as a whole. -/
theorem Turns.succeeds {rival : Option Failure} {c : Cursor} {r : Reply (List α × Option Failure)}
    (h : Turns S T rival c r) : ∃ as e d rival', r.result = .ok (as, e) d rival' := by
  induction h with
  | separatorFails _ => exact ⟨_, _, _, _, rfl⟩
  | itemFails _ _ => exact ⟨_, _, _, _, rfl⟩
  | @next _ _ _ _ _ _ _ _ a _ r _ _ _ _ ih =>
      obtain ⟨as, e, d, rival', hr⟩ := ih
      exact ⟨a :: as, e, d, rival', by simp only [hr, Result.map]⟩

theorem Separated.of_sepBy (hS : S.Reads k) (hT : T.Reads l) (hkl : 1 ≤ k + l) {N : Nat}
    (hp : ∀ c : Cursor, c.rest.length ≤ N → S c (p c))
    (hq : ∀ c : Cursor, c.rest.length ≤ N → T c (q c)) {c : Cursor} (hc : c.rest.length ≤ N)
    (allowTrailing : Bool) :
    Separated S T allowTrailing c (Parser.sepBy p q allowTrailing c) := by
  have hhead := hp c hc
  unfold Parser.sepBy
  split
  · rename_i errs e he
    rw [he] at hhead
    exact .none hhead
  · rename_i errs a d rival hd
    rw [hd] at hhead
    have hd₁ := (hS hhead rfl).length_rest
    have htail : Turns S T rival d (Parser.moreUpTo p q d.rounds rival d) :=
      Turns.of_moreUpTo hS hT hkl hp hq (by omega) (by rw [Cursor.rounds_eq_length]; omega)
    obtain ⟨as, e, d', rival', hmore⟩ := htail.succeeds
    have hd₂ := (hS.turns hT rival htail hmore).length_rest
    generalize hreply : Parser.moreUpTo p q d.rounds rival d = reply at htail hmore
    obtain ⟨errs', result⟩ := reply
    subst hmore
    have htrails : Trails T allowTrailing rival' d'
        (if allowTrailing then Parser.trailing q rival' d' else (d', rival')) := by
      unfold Trails
      split
      · exact ⟨q d', hq d' (by omega), rfl⟩
      · rfl
    exact .some hhead htail htrails

theorem Search.of_retry {N : Nat} (hp : ∀ c : Cursor, c.rest.length ≤ N → S c (p c))
    (errors : List Failure) (failure : Failure) {n : Nat} {c : Cursor} (hc : c.rest.length ≤ N)
    (hn : c.rest.length < n) : Search S errors failure c (retry p errors failure n c) := by
  induction n generalizing c with
  | zero => cases hn
  | succ n ih =>
      have hrun := hp c hc
      unfold retry
      split
      · rename_i errs a d rival hd
        rw [hd] at hrun
        exact .found hrun
      · rename_i errs e he
        rw [he] at hrun
        split
        · rename_i l c' hnext
          have hlength := (Cursor.apart_of_next? hnext).length_rest
          exact .skip hrun hnext (ih (by omega) (by omega))
        · rename_i hnext
          exact .exhausted hrun hnext

theorem OrSearch.of_orSkipTokens {N : Nat} (hp : ∀ c : Cursor, c.rest.length ≤ N → S c (p c))
    {c : Cursor} (hc : c.rest.length ≤ N) : OrSearch S c (Parser.orSkipTokens p c) := by
  have hrun := hp c hc
  unfold Parser.orSkipTokens
  split
  · rename_i errs a d rival hd
    rw [hd] at hrun
    exact .found hrun
  · rename_i errs e he
    rw [he] at hrun
    have hlength := (Cursor.apart_advance c).length_rest
    refine .search hrun (Search.of_retry hp errs e (by omega) ?_)
    rw [Cursor.rounds_eq_length]
    omega

end Behaviour

/-! ## Sequences

What a sequence replies depends on its parts only where they are run. -/

namespace Parser

variable {α β : Type} {p : Parser α} {q : Parser β} {c : Cursor}

theorem seq_of_fail {e : Failure} (h : (p c).result = .fail e) (y : Reply β) :
    Parser.seq p q c = Parser.seq (fun _ => p c) (fun _ => y) c := by
  obtain ⟨errs, hp⟩ : ∃ errs, p c = ⟨errs, .fail e⟩ := ⟨(p c).errors, by rw [← h]⟩
  simp only [Parser.seq, hp]

theorem seq_of_ok {a : α} {d : Cursor} {rival : Option Failure}
    (h : (p c).result = .ok a d rival) :
    Parser.seq p q c = Parser.seq (fun _ => p c) (fun _ => q d) c := by
  obtain ⟨errs, hp⟩ : ∃ errs, p c = ⟨errs, .ok a d rival⟩ := ⟨(p c).errors, by rw [← h]⟩
  simp only [Parser.seq, hp]

end Parser

namespace Gram

variable {R : Type → Type} {α : Type}

/-! ## What excludes endless runs -/

/-- Whether the body of every loop reads a token. -/
def loopsRead : {α : Type} → Gram R α → Bool
  | _, .token _ | _, .pick _ | _, .finish | _, .rule _ => true
  | _, .seq a b | _, .orElse a b => a.loopsRead && b.loopsRead
  | _, .map _ a | _, .optional a | _, .located _ a | _, .orSkipBrackets a _ _
  | _, .orSkipTokens a => a.loopsRead
  | _, .many a => decide (1 ≤ a.minTokens) && a.loopsRead
  | _, .sepBy item sep _ =>
      decide (1 ≤ item.minTokens + sep.minTokens) && (item.loopsRead && sep.loopsRead)
termination_by structural _ a => a

/-- Whether all rules that can be run before a token is read have a level below `n`. -/
def startsBelow (level : {α : Type} → R α → Nat) (n : Nat) : {α : Type} → Gram R α → Bool
  | _, .token _ | _, .pick _ | _, .finish => true
  | _, .seq a b =>
      a.startsBelow level n && (decide (1 ≤ a.minTokens) || b.startsBelow level n)
  | _, .orElse a b | _, .sepBy a b _ => a.startsBelow level n && b.startsBelow level n
  | _, .map _ a | _, .optional a | _, .many a | _, .located _ a | _, .orSkipBrackets a _ _
  | _, .orSkipTokens a => a.startsBelow level n
  | _, .rule q => decide (level q < n)
termination_by structural _ a => a

/-- Every rule reads a token, every loop reads, and no rule starts with one of its own level. -/
structure Guarded (body : {α : Type} → R α → Gram R α) (level : {α : Type} → R α → Nat)
    (levels : Nat) : Prop where
  reads : ∀ {α : Type} (q : R α), 1 ≤ (body q).minTokens
  loops : ∀ {α : Type} (q : R α), (body q).loopsRead = true
  starts : ∀ {α : Type} (q : R α), (body q).startsBelow level (level q) = true
  below : ∀ {α : Type} (q : R α), level q < levels

/-! ## Runs with enough depth end -/

section Ends

variable (level : {α : Type} → R α → Nat) (N n : Nat)

/-- The rules that may be run at `c`: all of them if fewer than `N` tokens are left, and otherwise
those that the grammar can start with, if they are of a level below `n`. -/
def Ready (g : Gram R α) (c : Cursor) : Prop :=
  c.rest.length < N ∨ c.rest.length ≤ N ∧ g.startsBelow level n = true

variable {level} {N n}

theorem Ready.imp {β : Type} {g : Gram R α} {g' : Gram R β} {c d : Cursor}
    (h : Ready level N n g c) (hstarts : g.startsBelow level n = true → g'.startsBelow level n = true)
    (hlength : d.rest.length ≤ c.rest.length) : Ready level N n g' d := by
  rcases h with h | ⟨h, hg⟩
  · exact .inl (Nat.lt_of_le_of_lt hlength h)
  · exact .inr ⟨Nat.le_trans hlength h, hstarts hg⟩

variable {rules : {α : Type} → R α → Parser α} {runs : {α : Type} → R α → Behaviour α}

/-- **The counts of a parser do not matter.** If the rules that may be run end with the replies of
their parsers, then so does the grammar. -/
theorem runs_run (hreads : ∀ {α : Type} (q : R α), (runs q).Reads 1)
    (hrules : ∀ {α : Type} (q : R α) (c : Cursor), Ready level N n (.rule q : Gram R α) c →
      runs q c (rules q c))
    (g : Gram R α) (hloops : g.loopsRead = true) :
    ∀ {c : Cursor}, Ready level N n g c → g.Runs runs c (g.run rules c) := by
  induction g with
  | token t | pick f | finish => exact fun _ => rfl
  | seq a b iha ihb =>
      intro c hc
      obtain ⟨hla, hlb⟩ := (Bool.and_eq_true _ _).mp hloops
      have hleft : ∀ {n}, (Gram.seq a b).startsBelow level n = true →
          a.startsBelow level n = true := fun h => ((Bool.and_eq_true _ _).mp h).1
      have hx := iha hla (hc.imp hleft (Nat.le_refl _))
      cases hres : (a.run rules c).result with
      | fail e =>
          -- the second part is not run
          refine ⟨_, ⟨[], .fail e⟩, hx, fun v d rival hv => ?_, ?_⟩
          · rw [hres] at hv
            cases hv
          · exact Parser.seq_of_fail hres _
      | ok v d rival =>
          have hapart := Runs.reads hreads a hx hres
          have hlength := hapart.length_rest
          have hd : Ready level N n b d := by
            rcases hc with hc | ⟨hc, hstarts⟩
            · exact .inl (by omega)
            · by_cases hread : 1 ≤ a.minTokens
              · exact .inl (by omega)
              · have hright := ((Bool.and_eq_true _ _).mp hstarts).2
                rw [decide_eq_false hread, Bool.false_or] at hright
                exact .inr ⟨by omega, hright⟩
          refine ⟨_, b.run rules d, hx, fun v' d' rival' hv => ?_, ?_⟩
          · rw [hres] at hv
            cases hv
            exact ihb hlb hd
          · exact Parser.seq_of_ok hres
  | map f a ih | optional a ih | located f a ih | orSkipBrackets a b placeholder ih =>
      intro c hc
      exact ⟨a.run rules c, ih hloops (hc.imp id (Nat.le_refl _)), rfl⟩
  | orElse a b iha ihb =>
      intro c hc
      obtain ⟨hla, hlb⟩ := (Bool.and_eq_true _ _).mp hloops
      have hx := iha hla (hc.imp (fun h => ((Bool.and_eq_true _ _).mp h).1) (Nat.le_refl _))
      have hy := ihb hlb (hc.imp (fun h => ((Bool.and_eq_true _ _).mp h).2) (Nat.le_refl _))
      exact ⟨a.run rules c, b.run rules c, hx, fun _ => hy, rfl⟩
  | many a ih =>
      intro c hc
      obtain ⟨hread, hla⟩ := (Bool.and_eq_true _ _).mp hloops
      refine Behaviour.Rounds.of_manyUpTo
        ((Runs.reads hreads a).weaken (of_decide_eq_true hread))
        (fun d hd => ih hla (hc.imp id hd)) (Nat.le_refl _) ?_
      rw [Cursor.rounds_eq_length]
      omega
  | sepBy item sep allowTrailing ihitem ihsep =>
      intro c hc
      obtain ⟨hread, hloops⟩ := (Bool.and_eq_true _ _).mp hloops
      obtain ⟨hli, hls⟩ := (Bool.and_eq_true _ _).mp hloops
      exact Behaviour.Separated.of_sepBy (Runs.reads hreads item) (Runs.reads hreads sep)
        (of_decide_eq_true hread)
        (fun d hd => ihitem hli (hc.imp (fun h => ((Bool.and_eq_true _ _).mp h).1) hd))
        (fun d hd => ihsep hls (hc.imp (fun h => ((Bool.and_eq_true _ _).mp h).2) hd))
        (Nat.le_refl _) allowTrailing
  | orSkipTokens a ih =>
      intro c hc
      exact Behaviour.OrSearch.of_orSkipTokens (fun d hd => ih hloops (hc.imp id hd)) (Nat.le_refl _)
  | rule q => exact fun hc => hrules q _ hc

end Ends

/-! ## Guarded grammars -/

section Guarded

variable {body : {α : Type} → R α → Gram R α} {level : {α : Type} → R α → Nat} {levels : Nat}
  {parsers : Nat → {α : Type} → R α → Parser α}

theorem Guarded.within_reads (h : Guarded body level levels) :
    ∀ (n : Nat) {α : Type} (q : R α), (within body n q).Reads 1
  | 0, _, _ => fun _ _ hr => hr.elim
  | n + 1, _, q => (Runs.reads (h.within_reads n) (body q)).weaken (h.reads q)

/-- **Every success reads a token**, with rules nested to any depth. -/
theorem Guarded.reads_of_runsTo (h : Guarded body level levels) (g : Gram R α) :
    (RunsTo body g).Reads g.minTokens := by
  rintro c r ⟨n, hn⟩
  exact Runs.reads (h.within_reads n) g hn

/-- With every token there are as many rules to nest as there are levels. -/
theorem Guarded.within_parsers (h : Guarded body level levels)
    (hparsers : ∀ (n : Nat) {α : Type} (q : R α), parsers (n + 1) q = (body q).run (parsers n)) :
    ∀ (n : Nat) {α : Type} (q : R α) (c : Cursor), levels * c.rest.length + level q < n →
      within body n q c (parsers n q c)
  | 0, _, _, _, hn => by cases hn
  | n + 1, _, q, c, hn => by
      rw [hparsers]
      -- at `c` itself only rules below `q` are run, and behind it there is a token less
      refine runs_run (h.within_reads n) (fun q' d hd => h.within_parsers hparsers n q' d ?_)
        (body q) (h.loops q) (.inr ⟨Nat.le_refl _, h.starts q⟩)
      rcases hd with hd | ⟨hd, hstarts⟩
      · have hlevel := h.below q'
        have hmul : levels * (d.rest.length + 1) ≤ levels * c.rest.length := Nat.mul_le_mul_left _ hd
        rw [Nat.mul_add, Nat.mul_one] at hmul
        omega
      · have hlevel : level q' < level q := of_decide_eq_true hstarts
        have hmul : levels * d.rest.length ≤ levels * c.rest.length := Nat.mul_le_mul_left _ hd
        omega

/-- **Every run ends, and with the reply of the parser.** The parser needs no more depth than there
are levels for every token that is left, and one time more. -/
theorem Guarded.runsTo_iff (h : Guarded body level levels)
    (hparsers : ∀ (n : Nat) {α : Type} (q : R α), parsers (n + 1) q = (body q).run (parsers n))
    (g : Gram R α) (hg : g.loopsRead = true) (c : Cursor) (r : Reply α) :
    RunsTo body g c r ↔ r = g.run (parsers (levels * c.rest.length + levels)) c := by
  have hrules : ∀ {α : Type} (q : R α) (d : Cursor),
      Ready level (c.rest.length + 1) 0 (.rule q : Gram R α) d →
        within body (levels * c.rest.length + levels) q d
          (parsers (levels * c.rest.length + levels) q d) := by
    intro α q d hd
    have hlength : d.rest.length ≤ c.rest.length := by
      rcases hd with hd | ⟨-, hstarts⟩
      · omega
      · exact absurd (of_decide_eq_true hstarts) (Nat.not_lt_zero _)
    have hlevel := h.below q
    have hmul : levels * d.rest.length ≤ levels * c.rest.length := Nat.mul_le_mul_left _ hlength
    exact h.within_parsers hparsers _ q d (by omega)
  have hends : RunsTo body g c (g.run (parsers (levels * c.rest.length + levels)) c) :=
    ⟨_, runs_run (h.within_reads _) hrules g hg (.inl (Nat.lt_succ_self _))⟩
  constructor
  · exact fun hr => hr.unique hends
  · rintro rfl
    exact hends

end Guarded

end Gram

end Rivulet.Grammar
