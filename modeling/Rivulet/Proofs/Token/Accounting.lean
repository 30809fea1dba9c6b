import Rivulet.Proofs.Token.Patterns

set_option autoImplicit false

/-! # Every byte of a source text is accounted for

What the lexer says about a whole text. Its tokens and its reports cover stretches of the text;
merged by position (`Token.stretches`), these lie one behind the other without overlap, and what
they leave open is white space and comments. Each token is what its stretch of text stands for, and
no pattern matches a longer text there. A report is made on a number that is too large, with all of
its digits, and where no pattern matches. `Token.Account` is the list of these facts.

They follow from three facts about the pieces that a text is cut into: each piece is the front of
what is left (`mem_pieces`), the pieces ascend (`pieces_ascend`), and every byte lies in one of them
(`exists_piece`). -/

namespace Rivulet.Token

/-! ## Stretches of a text -/

/-- The span covers `text`, which stands between `before` and `after` in the source. Both ends of
such a span lie between two characters. -/
def Covers (source : List Char) (s : Span) (before text after : List Char) : Prop :=
  source = before ++ text ++ after ∧ s = ⟨byteLength before, byteLength (before ++ text)⟩

/-- Whether the first span starts no later than the second. -/
def startsFirst (s t : Span) : Bool := s.start ≤ t.start

/-- The spans of the tokens and of the reports, merged by position. -/
def stretches (lexed : Report Diagnostic (List Lexeme)) : List Span :=
  (lexed.value.map Lexeme.span).merge (lexed.findings.map Diagnostic.span) startsFirst

/-- What it means that tokens and reports account for a source text. -/
structure Account (source : List Char) (lexed : Report Diagnostic (List Lexeme)) : Prop where
  /-- The stretches ascend and do not overlap. -/
  ascending : (stretches lexed).Pairwise fun s t => s.stop ≤ t.start
  /-- No stretch is empty. -/
  nonempty : ∀ s ∈ stretches lexed, s.start < s.stop
  /-- Stretches begin and end between two characters. -/
  boundaries : ∀ s ∈ stretches lexed, ∃ before text after, Covers source s before text after
  /-- A byte outside of all stretches lies in white space or in a comment, which is outside of all
  stretches as a whole. -/
  blank : ∀ n < byteLength source, (∀ s ∈ stretches lexed, ¬ (s.start ≤ n ∧ n < s.stop)) →
    ∃ gap before text after, Covers source gap before text after ∧
      (Pattern.blanks.Matches text ∨ Pattern.comment.Matches text) ∧
      (gap.start ≤ n ∧ n < gap.stop) ∧
        ∀ s ∈ stretches lexed, s.stop ≤ gap.start ∨ gap.stop ≤ s.start
  /-- A token is what its text stands for, and nothing longer matches there. -/
  tokens : ∀ l ∈ lexed.value, ∃ before text after, Covers source l.span before text after ∧
    Denotes text l.token ∧
    ∀ (p : Pattern) (w : List Char), p.Matches w → w <+: text ++ after → w.length ≤ text.length
  /-- What is reported is a number, or nothing matches there. In the latter case, it is one
  character or else the front of a string literal as far as one can be completed. -/
  reports : ∀ d ∈ lexed.findings, d.code = .lexical ∧
    ∃ before text after, Covers source d.span before text after ∧
      (Pattern.digits.Matches text ∨
        (∀ (p : Pattern) (w : List Char), p.Matches w → ¬ w <+: text ++ after) ∧
          ((∃ c, text = [c] ∧ c ≠ '\x22') ∨
            Viable text ∧ ∀ w, w <+: text ++ after → Viable w → w.length ≤ text.length))
  /-- A stretch that starts with a digit is a whole run of digits, and it is reported exactly if its
  value is too large. -/
  numbers : ∀ s ∈ stretches lexed, ∃ before text after, Covers source s before text after ∧
    ((∃ c ∈ text.head?, c.isDigit = true) →
      Pattern.digits.Matches text ∧ (∀ c ∈ after.head?, c.isDigit = false) ∧
        (s ∈ lexed.findings.map Diagnostic.span ↔ maxInt < decimal text))

/-! ## The pieces of a text -/

theorem byteLength_append (cs ds : List Char) :
    byteLength (cs ++ ds) = byteLength cs + byteLength ds := by
  induction cs with
  | nil => simp [byteLength]
  | cons c cs ih =>
      simp only [byteLength, List.cons_append, List.foldr_cons] at ih ⊢
      omega

theorem byteLength_pos {cs : List Char} (h : cs ≠ []) : 0 < byteLength cs := by
  obtain ⟨c, cs, rfl⟩ := List.exists_cons_of_ne_nil h
  have := c.utf8Size_pos
  simp only [byteLength, List.foldr_cons]
  omega

theorem byteLength_front (c : Char) (cs : List Char) :
    byteLength (c :: cs) = byteLength (Cut.front c cs).text + byteLength (Cut.front c cs).rest := by
  rw [← byteLength_append, Cut.text_append_rest]

/-- A piece of a text is the front of what is left behind the pieces before it. -/
theorem mem_pieces {offset : Nat} {cs : List Char} {x : Piece × Span} (hx : x ∈ pieces offset cs) :
    ∃ u c v, cs = u ++ c :: v ∧ x.1 = (Cut.front c v).piece ∧
      x.2 = ⟨offset + byteLength u, offset + byteLength u + byteLength (Cut.front c v).text⟩ := by
  fun_induction pieces offset cs with
  | case1 => cases hx
  | case2 offset c cs cut stop ih =>
      rcases List.mem_cons.1 hx with rfl | hx
      · exact ⟨[], c, cs, rfl, rfl, rfl⟩
      · obtain ⟨u, d, v, hrest, hpiece, hspan⟩ := ih hx
        refine ⟨cut.text ++ u, d, v, ?_, hpiece, ?_⟩
        · rw [List.append_assoc, ← hrest, Cut.text_append_rest]
        · rw [hspan, byteLength_append]
          simp only [stop, Nat.add_assoc]

/-- The pieces of a text ascend, and none is empty. -/
theorem pieces_ascend (offset : Nat) (cs : List Char) :
    (pieces offset cs).Pairwise (fun x y => x.2.stop ≤ y.2.start) ∧
      ∀ x ∈ pieces offset cs, offset ≤ x.2.start ∧ x.2.start < x.2.stop := by
  fun_induction pieces offset cs with
  | case1 => simp
  | case2 offset c cs cut stop ih =>
      obtain ⟨hpairwise, hbounds⟩ := ih
      have hpos : 0 < byteLength cut.text := byteLength_pos (Cut.text_ne_nil c cs)
      have hstop : stop = offset + byteLength cut.text := rfl
      refine ⟨List.pairwise_cons.2 ⟨fun y hy => (hbounds y hy).1, hpairwise⟩,
        List.forall_mem_cons.2 ⟨⟨Nat.le_refl _, ?_⟩, fun y hy => ?_⟩⟩
      · show offset < stop
        omega
      · have := hbounds y hy
        omega

/-- Every byte of a text lies in one of its pieces. -/
theorem exists_piece {offset n : Nat} {cs : List Char} (hoffset : offset ≤ n)
    (hn : n < offset + byteLength cs) :
    ∃ x ∈ pieces offset cs, x.2.start ≤ n ∧ n < x.2.stop := by
  fun_induction pieces offset cs with
  | case1 offset =>
      simp only [byteLength, List.foldr_nil] at hn
      omega
  | case2 offset c cs cut stop ih =>
      by_cases hin : n < stop
      · exact ⟨_, List.mem_cons_self, hoffset, hin⟩
      · have hlength := byteLength_front c cs
        have hstop : stop = offset + byteLength cut.text := rfl
        have hrest : n < stop + byteLength cut.rest := by
          show n < stop + byteLength (Cut.front c cs).rest
          have : byteLength cut.text = byteLength (Cut.front c cs).text := rfl
          omega
        obtain ⟨x, hx, hn⟩ := ih (Nat.le_of_not_lt hin) hrest
        exact ⟨x, List.mem_cons_of_mem _ hx, hn⟩

/-- Two pieces of a text are the same, or one lies behind the other. -/
theorem pieces_disjoint {offset : Nat} {cs : List Char} {x y : Piece × Span}
    (hx : x ∈ pieces offset cs) (hy : y ∈ pieces offset cs) (hne : x ≠ y) :
    x.2.stop ≤ y.2.start ∨ y.2.stop ≤ x.2.start := by
  have hsymmetric : (pieces offset cs).Pairwise fun x y =>
      x.2.stop ≤ y.2.start ∨ y.2.stop ≤ x.2.start :=
    (pieces_ascend offset cs).1.imp .inl
  have : Std.Symm fun x y : Piece × Span => x.2.stop ≤ y.2.start ∨ y.2.stop ≤ x.2.start :=
    ⟨fun _ _ => Or.symm⟩
  exact hsymmetric.forall hx hy hne

/-- No two pieces have the same span, because no piece is empty. -/
theorem eq_of_span_eq {offset : Nat} {cs : List Char} {x y : Piece × Span}
    (hx : x ∈ pieces offset cs) (hy : y ∈ pieces offset cs) (hspan : x.2 = y.2) : x = y := by
  by_contra hne
  obtain ⟨-, hnonempty⟩ := (pieces_ascend offset cs).2 y hy
  rcases pieces_disjoint hx hy hne with h | h
  · rw [hspan] at h
    omega
  · rw [hspan] at h
    omega

/-! ## Tokens and faults among pieces -/

section Cons

variable (t : Token) (f : Fault) (s : Span) (ps : List (Piece × Span))

@[simp] theorem filterMap_lexeme?_blank :
    ((Piece.blank, s) :: ps).filterMap lexeme? = ps.filterMap lexeme? := rfl

@[simp] theorem filterMap_lexeme?_token :
    ((Piece.token t, s) :: ps).filterMap lexeme? = ⟨t, s⟩ :: ps.filterMap lexeme? := rfl

@[simp] theorem filterMap_lexeme?_fault :
    ((Piece.fault f, s) :: ps).filterMap lexeme? = ps.filterMap lexeme? := rfl

@[simp] theorem filterMap_diagnostic?_blank :
    ((Piece.blank, s) :: ps).filterMap diagnostic? = ps.filterMap diagnostic? := rfl

@[simp] theorem filterMap_diagnostic?_token :
    ((Piece.token t, s) :: ps).filterMap diagnostic? = ps.filterMap diagnostic? := rfl

@[simp] theorem filterMap_diagnostic?_fault :
    ((Piece.fault f, s) :: ps).filterMap diagnostic? = f.diagnostic s :: ps.filterMap diagnostic? :=
  rfl

end Cons

/-! ## The stretches are the pieces that are not blank -/

/-- Whether a piece is a token or a fault. -/
def isMarked (x : Piece × Span) : Bool := x.1 != .blank

theorem span_diagnostic (f : Fault) (s : Span) : (f.diagnostic s).span = s := by
  cases f <;> rfl

theorem merge_cons_left {s : Span} {ss ts : List Span} (h : ∀ t ∈ ts, s.start < t.start) :
    (s :: ss).merge ts startsFirst = s :: ss.merge ts startsFirst := by
  cases ts with
  | nil => simp
  | cons t ts =>
      rw [List.cons_merge_cons_pos]
      exact decide_eq_true (Nat.le_of_lt (h t (by simp)))

theorem merge_cons_right {t : Span} {ss ts : List Span} (h : ∀ s ∈ ss, t.start < s.start) :
    ss.merge (t :: ts) startsFirst = t :: ss.merge ts startsFirst := by
  cases ss with
  | nil => simp
  | cons s ss =>
      rw [List.cons_merge_cons_neg]
      simpa [startsFirst] using h s (by simp)

theorem mem_of_lexeme? {ps : List (Piece × Span)} {s : Span}
    (hs : s ∈ (ps.filterMap lexeme?).map Lexeme.span) : ∃ x ∈ ps, x.2 = s := by
  obtain ⟨l, hl, rfl⟩ := List.mem_map.1 hs
  obtain ⟨⟨piece, s⟩, hx, hlexeme⟩ := List.mem_filterMap.1 hl
  cases piece <;> cases hlexeme
  exact ⟨_, hx, rfl⟩

theorem mem_of_diagnostic? {ps : List (Piece × Span)} {s : Span}
    (hs : s ∈ (ps.filterMap diagnostic?).map Diagnostic.span) : ∃ x ∈ ps, x.2 = s := by
  obtain ⟨d, hd, rfl⟩ := List.mem_map.1 hs
  obtain ⟨⟨piece, s⟩, hx, hdiagnostic⟩ := List.mem_filterMap.1 hd
  cases piece <;> cases hdiagnostic
  exact ⟨_, hx, (span_diagnostic _ _).symm⟩

/-- Merging undoes the separation of tokens and faults. -/
theorem merge_lexemes {ps : List (Piece × Span)}
    (hps : ps.Pairwise fun x y => x.2.start < y.2.start) :
    ((ps.filterMap lexeme?).map Lexeme.span).merge ((ps.filterMap diagnostic?).map Diagnostic.span)
        startsFirst
      = (ps.filter isMarked).map Prod.snd := by
  induction ps with
  | nil => simp
  | cons x ps ih =>
      obtain ⟨hbehind, hrest⟩ := List.pairwise_cons.1 hps
      obtain ⟨piece, s⟩ := x
      cases piece with
      | blank => exact ih hrest
      | token t =>
          -- every span behind starts later, in whichever of the two lists it is
          have hfirst : ∀ d ∈ (ps.filterMap diagnostic?).map Diagnostic.span,
              s.start < d.start := by
            intro d hd
            obtain ⟨y, hy, rfl⟩ := mem_of_diagnostic? hd
            exact hbehind y hy
          exact (merge_cons_left hfirst).trans (congrArg (s :: ·) (ih hrest))
      | fault f =>
          have hfirst : ∀ l ∈ (ps.filterMap lexeme?).map Lexeme.span, s.start < l.start := by
            intro l hl
            obtain ⟨y, hy, rfl⟩ := mem_of_lexeme? hl
            exact hbehind y hy
          rw [filterMap_lexeme?_fault, filterMap_diagnostic?_fault, List.map_cons, span_diagnostic,
            merge_cons_right hfirst, ih hrest]
          rfl

section Lex

variable {source : String}

theorem stretches_lex (source : String) :
    stretches (lex source) = ((pieces 0 source.toList).filter isMarked).map Prod.snd := by
  obtain ⟨hpairwise, hbounds⟩ := pieces_ascend 0 source.toList
  refine merge_lexemes (hpairwise.imp_of_mem fun hx _ hxy => ?_)
  have := hbounds _ hx
  omega

theorem mem_stretches_iff {s : Span} :
    s ∈ stretches (lex source) ↔ ∃ x ∈ pieces 0 source.toList, isMarked x = true ∧ x.2 = s := by
  rw [stretches_lex]
  simp only [List.mem_map, List.mem_filter, and_assoc]

theorem mem_value_iff {l : Lexeme} :
    l ∈ (lex source).value ↔ (Piece.token l.token, l.span) ∈ pieces 0 source.toList := by
  simp only [lex, List.mem_filterMap]
  constructor
  · rintro ⟨⟨piece, s⟩, hx, hl⟩
    cases piece <;> cases hl
    exact hx
  · exact fun h => ⟨_, h, rfl⟩

theorem mem_findings_iff {d : Diagnostic} :
    d ∈ (lex source).findings ↔
      ∃ f s, (Piece.fault f, s) ∈ pieces 0 source.toList ∧ d = f.diagnostic s := by
  simp only [lex, List.mem_filterMap]
  constructor
  · rintro ⟨⟨piece, s⟩, hx, hd⟩
    cases piece <;> cases hd
    exact ⟨_, s, hx, rfl⟩
  · rintro ⟨f, s, h, rfl⟩
    exact ⟨_, h, rfl⟩

/-- A piece of a source covers what is cut off at its place. -/
theorem covers_of_mem_pieces {x : Piece × Span} (hx : x ∈ pieces 0 source.toList) :
    ∃ before c v, x.1 = (Cut.front c v).piece ∧
      Covers source.toList x.2 before (Cut.front c v).text (Cut.front c v).rest ∧
      (Cut.front c v).text ++ (Cut.front c v).rest = c :: v := by
  obtain ⟨u, c, v, hsource, hpiece, hspan⟩ := mem_pieces hx
  refine ⟨u, c, v, hpiece, ⟨?_, ?_⟩, Cut.text_append_rest c v⟩
  · rw [List.append_assoc, Cut.text_append_rest, hsource]
  · rw [hspan, byteLength_append, Nat.zero_add]

/-- A byte outside of all tokens and reports is blank. -/
theorem blank_of_unmarked {n : Nat} (hn : n < byteLength source.toList)
    (hout : ∀ s ∈ stretches (lex source), ¬ (s.start ≤ n ∧ n < s.stop)) :
    ∃ gap before text after, Covers source.toList gap before text after ∧
      (Pattern.blanks.Matches text ∨ Pattern.comment.Matches text) ∧
      (gap.start ≤ n ∧ n < gap.stop) ∧
        ∀ s ∈ stretches (lex source), s.stop ≤ gap.start ∨ gap.stop ≤ s.start := by
  obtain ⟨x, hx, hin⟩ := exists_piece (Nat.zero_le n) (by rwa [Nat.zero_add])
  have hblank : isMarked x = false := by
    by_contra hmarked
    exact hout x.2 (mem_stretches_iff.2 ⟨x, hx, by simpa using hmarked, rfl⟩) hin
  obtain ⟨before, c, v, hpiece, hcovers, -⟩ := covers_of_mem_pieces hx
  have hfront : (Cut.front c v).piece = .blank := by
    rw [← hpiece]
    simpa [isMarked] using hblank
  refine ⟨x.2, before, _, _, hcovers, Cut.front_blank hfront, hin, fun s hs => ?_⟩
  obtain ⟨y, hy, hmarked, rfl⟩ := mem_stretches_iff.1 hs
  refine pieces_disjoint hy hx fun heq => ?_
  rw [heq, hblank] at hmarked
  cases hmarked

/-- A token is what its text stands for, and its text is the longest one that matches. -/
theorem denotes_of_mem_value {l : Lexeme} (hl : l ∈ (lex source).value) :
    ∃ before text after, Covers source.toList l.span before text after ∧ Denotes text l.token ∧
      ∀ (p : Pattern) (w : List Char), p.Matches w → w <+: text ++ after →
        w.length ≤ text.length := by
  obtain ⟨before, c, v, hpiece, hcovers, hfront⟩ := covers_of_mem_pieces (mem_value_iff.1 hl)
  refine ⟨before, _, _, hcovers, Cut.front_denotes hpiece.symm, fun p w hp hw => ?_⟩
  rw [hfront] at hw
  exact (Cut.front_longest hp hw).1

/-- A stretch that starts with a digit is a run of digits, of which nothing is left behind it. -/
theorem digits_of_front {c : Char} (hc : c.isDigit = true) (cs : List Char) :
    Pattern.digits.Matches (Cut.front c cs).text ∧
      ∀ d ∈ (Cut.front c cs).rest.head?, d.isDigit = false := by
  rw [Cut.front_of_isDigit hc]
  refine ⟨⟨by simp [Cut.run], List.forall_mem_cons.2 ⟨hc, Cut.all_takeWhile _ cs⟩⟩, ?_⟩
  intro d hd
  have := List.head?_dropWhile_not Char.isDigit cs
  simp only [Cut.run] at hd
  rw [Option.mem_def.1 hd] at this
  simpa using this

/-- What is reported is a number, or nothing matches there. -/
theorem unmatched_of_mem_findings {d : Diagnostic} (hd : d ∈ (lex source).findings) :
    d.code = .lexical ∧ ∃ before text after, Covers source.toList d.span before text after ∧
      (Pattern.digits.Matches text ∨
        (∀ (p : Pattern) (w : List Char), p.Matches w → ¬ w <+: text ++ after) ∧
          ((∃ c, text = [c] ∧ c ≠ '\x22') ∨
            Viable text ∧ ∀ w, w <+: text ++ after → Viable w → w.length ≤ text.length)) := by
  obtain ⟨f, s, hx, rfl⟩ := mem_findings_iff.1 hd
  refine ⟨by cases f <;> rfl, ?_⟩
  obtain ⟨before, c, v, hpiece, hcovers, hfront⟩ := covers_of_mem_pieces hx
  rw [span_diagnostic]
  refine ⟨before, _, _, hcovers, ?_⟩
  cases f with
  | outOfRange digits =>
      exact .inl (digits_of_front (Cut.front_outOfRange hpiece.symm).1 v).1
  | unrecognized text =>
      have hfault : (Cut.front c v).IsUnrecognized := ⟨text, hpiece.symm⟩
      rw [hfront]
      refine .inr ⟨fun p w hp hw => (Cut.front_longest hp hw).2 hfault, ?_⟩
      rcases Cut.front_unrecognized hfault with ⟨htext, hc⟩ | ⟨-, hviable⟩
      · exact .inl ⟨c, htext, hc⟩
      · exact .inr hviable

/-- A run of digits is reported exactly if its value is too large. -/
theorem number_of_mem_stretches {s : Span} (hs : s ∈ stretches (lex source)) :
    ∃ before text after, Covers source.toList s before text after ∧
      ((∃ c ∈ text.head?, c.isDigit = true) →
        Pattern.digits.Matches text ∧ (∀ c ∈ after.head?, c.isDigit = false) ∧
          (s ∈ (lex source).findings.map Diagnostic.span ↔ maxInt < decimal text)) := by
  obtain ⟨x, hx, hmarked, rfl⟩ := mem_stretches_iff.1 hs
  obtain ⟨before, c, v, hpiece, hcovers, hfront⟩ := covers_of_mem_pieces hx
  refine ⟨before, _, _, hcovers, fun hhead => ?_⟩
  have hc : c.isDigit = true := by
    obtain ⟨d, hd, hdigit⟩ := hhead
    obtain ⟨tail, htail⟩ := List.head?_eq_some_iff.1 hd
    rw [htail, List.cons_append, List.cons.injEq] at hfront
    rwa [← hfront.1]
  obtain ⟨hdigits, hafter⟩ := digits_of_front hc v
  refine ⟨hdigits, hafter, ?_⟩
  constructor
  · -- a report at the same place is the report of this piece
    intro hmem
    obtain ⟨d, hd, hspan⟩ := List.mem_map.1 hmem
    obtain ⟨f, s, hy, rfl⟩ := mem_findings_iff.1 hd
    rw [span_diagnostic] at hspan
    have heq : (Piece.fault f, s) = x := eq_of_span_eq hy hx hspan
    rw [← heq] at hpiece
    cases f with
    | outOfRange digits => exact (Cut.front_outOfRange hpiece.symm).2
    | unrecognized text =>
        rw [Cut.front_of_isDigit hc] at hpiece
        exact absurd ⟨text, hpiece.symm⟩ Cut.not_isUnrecognized_number
  · intro hlarge
    have hfault : x.1 = .fault (.outOfRange (Cut.front c v).text) := by
      rw [hpiece]
      rw [Cut.front_of_isDigit hc] at hlarge ⊢
      simp only [Cut.run, Cut.number] at hlarge ⊢
      rw [if_neg (Nat.not_le.2 hlarge)]
    have hmem : (Piece.fault (.outOfRange (Cut.front c v).text), x.2) ∈ pieces 0 source.toList := by
      rw [← hfault]
      exact hx
    exact List.mem_map.2 ⟨_, mem_findings_iff.2 ⟨_, _, hmem, rfl⟩, span_diagnostic _ _⟩

/-- The tokens and reports of a source text account for all of it. -/
theorem lex_account (source : String) : Account source.toList (lex source) where
  ascending := by
    rw [stretches_lex]
    exact List.pairwise_map.2 ((pieces_ascend 0 source.toList).1.filter _)
  nonempty := by
    intro s hs
    obtain ⟨x, hx, -, rfl⟩ := mem_stretches_iff.1 hs
    exact ((pieces_ascend 0 source.toList).2 x hx).2
  boundaries := by
    intro s hs
    obtain ⟨before, text, after, hcovers, -⟩ := number_of_mem_stretches hs
    exact ⟨before, text, after, hcovers⟩
  blank := fun _ => blank_of_unmarked
  tokens := fun _ => denotes_of_mem_value
  reports := fun _ => unmatched_of_mem_findings
  numbers := fun _ => number_of_mem_stretches

end Lex

/-! ## Other ways to read the tokens -/

/-- Reading without spans gives the same tokens. -/
theorem tokens_eq (offset : Nat) (cs : List Char) :
    tokens cs = ((pieces offset cs).filterMap lexeme?).map Lexeme.token := by
  fun_induction tokens cs generalizing offset with
  | case1 => simp [pieces]
  | case2 c cs cut t ht ih => rw [pieces, ht, filterMap_lexeme?_token, List.map_cons, ← ih]
  | case3 c cs cut hblank ih => rw [pieces, hblank, filterMap_lexeme?_blank, ← ih]
  | case4 c cs cut f hf ih => rw [pieces, hf, filterMap_lexeme?_fault, ← ih]

namespace Stream

/-- The stream after a number of steps. -/
def after : Nat → Stream → Stream
  | 0, s => s
  | n + 1, s => after n s.next.2

/-- The lexemes that are still to come. -/
def lexemes (s : Stream) : List Lexeme := (pieces s.offset s.rest).filterMap lexeme?

/-- The reports that have been made and those that are still to come. -/
def reports (s : Stream) : List Diagnostic :=
  s.diagnostics ++ (pieces s.offset s.rest).filterMap diagnostic?

/-- A step gives the first of the lexemes to come and leaves the others, and it forgets no report.
-/
theorem next_spec (s : Stream) :
    s.next.1 = s.lexemes.head? ∧ s.next.2.lexemes = s.lexemes.tail ∧
      s.next.2.reports = s.reports := by
  fun_induction next s with
  | case1 s h => simp [lexemes, h, pieces]
  | case2 s c cs h cut span t ht =>
      have hpieces : pieces s.offset s.rest
          = (.token t, span) :: pieces span.stop cut.rest := by rw [h, pieces, ← ht]
      simp only [lexemes, reports, hpieces, filterMap_lexeme?_token, filterMap_diagnostic?_token,
        List.head?_cons, List.tail_cons, and_self]
  | case3 s c cs h cut span hblank ih =>
      have hpieces : pieces s.offset s.rest
          = (.blank, span) :: pieces span.stop cut.rest := by rw [h, pieces, ← hblank]
      simpa only [lexemes, reports, hpieces, filterMap_lexeme?_blank, filterMap_diagnostic?_blank]
        using ih
  | case4 s c cs h cut span f hf ih =>
      have hpieces : pieces s.offset s.rest
          = (.fault f, span) :: pieces span.stop cut.rest := by rw [h, pieces, ← hf]
      simpa only [lexemes, reports, hpieces, filterMap_lexeme?_fault, filterMap_diagnostic?_fault,
        List.append_assoc, List.singleton_append] using ih

/-- A step without a lexeme has read all of the text. -/
theorem rest_next {s : Stream} (h : s.next.1 = none) : s.next.2.rest = [] := by
  fun_induction next s with
  | case1 s hs => exact hs
  | case2 s c cs hs cut span t ht => cases h
  | case3 s c cs hs cut span hblank ih => exact ih h
  | case4 s c cs hs cut span f hf ih => exact ih h

theorem after_succ (n : Nat) (s : Stream) : s.after (n + 1) = (s.after n).next.2 := by
  induction n generalizing s with
  | zero => rfl
  | succ n ih => exact ih s.next.2

/-- Step after step, the lexemes come one by one. -/
theorem after_spec (n : Nat) (s : Stream) :
    (s.after n).lexemes = s.lexemes.drop n ∧ (s.after n).reports = s.reports := by
  induction n generalizing s with
  | zero => exact ⟨rfl, rfl⟩
  | succ n ih =>
      obtain ⟨-, hlexemes, hreports⟩ := s.next_spec
      obtain ⟨ihlexemes, ihreports⟩ := ih s.next.2
      refine ⟨?_, ihreports.trans hreports⟩
      rw [after, ihlexemes, hlexemes, List.drop_tail]

end Stream

/-- **The lexer accounts for every byte.** Tokens and reports account for the source text. Reading
the tokens alone gives the same tokens; so does a stream, step by step and for any number of steps,
and once it is exhausted it has made the same reports. -/
theorem lex_accounts (source : String) :
    Account source.toList (lex source) ∧
      tokens source.toList = (lex source).value.map Lexeme.token ∧
      (∀ n, ((Stream.ofSource source).after n).next.1 = (lex source).value[n]?) ∧
      ∀ n, (lex source).value.length < n →
        ((Stream.ofSource source).after n).diagnostics = (lex source).findings := by
  have hlexemes : (Stream.ofSource source).lexemes = (lex source).value := rfl
  have hreports : (Stream.ofSource source).reports = (lex source).findings := List.nil_append _
  refine ⟨lex_account source, tokens_eq 0 source.toList, fun n => ?_, fun n hn => ?_⟩
  · obtain ⟨hafter, -⟩ := (Stream.ofSource source).after_spec n
    rw [(Stream.next_spec _).1, hafter, hlexemes, List.head?_drop]
  · obtain ⟨m, rfl⟩ : ∃ m, n = m + 1 := ⟨n - 1, by omega⟩
    obtain ⟨hafter, -⟩ := (Stream.ofSource source).after_spec m
    obtain ⟨-, hsame⟩ := (Stream.ofSource source).after_spec (m + 1)
    have hnone : ((Stream.ofSource source).after m).next.1 = none := by
      rw [(Stream.next_spec _).1, hafter, hlexemes, List.drop_of_length_le (by omega)]
      rfl
    have hrest : ((Stream.ofSource source).after (m + 1)).rest = [] := by
      rw [Stream.after_succ]
      exact Stream.rest_next hnone
    rwa [Stream.reports, hrest, pieces, List.filterMap_nil, List.append_nil, hreports] at hsame

end Rivulet.Token
