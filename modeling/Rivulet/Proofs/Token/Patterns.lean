import Rivulet.Proofs.Token.Spelling

set_option autoImplicit false

/-! # The patterns of tokens and blanks

What a piece of source text may look like, said without the lexer. A `Pattern` is a kind of token or
of blank, and `Pattern.Matches` gives the texts of that kind; `Token.Denotes` says which token a
text stands for. A name that is a keyword stands for the keyword.

The lexer cuts off the longest text at the front that matches any pattern (`Cut.front_longest`), and
the piece is what that text stands for (`Cut.front_denotes`, `Cut.front_blank`). It finds a fault
only at a number that is too large and where no pattern matches (`Cut.front_outOfRange`,
`Cut.front_unrecognized`). At a quote, such a fault extends as far as a string literal can still be
completed; anywhere else it is one character. -/

namespace Rivulet

/-! ## Patterns -/

namespace Token

/-- The escapes of a string literal: what follows the backslash, and the character it stands for. -/
def escapes : List (Char × Char) :=
  [('n', '\n'), ('t', '\t'), ('\x22', '\x22'), ('\x5c', '\x5c')]

/-- The characters between the quotes of a string literal, and the text they stand for. -/
inductive Escaped : List Char → List Char → Prop where
  | nil : Escaped [] []
  | plain {c : Char} {body value : List Char} (hquote : c ≠ '\x22') (hbackslash : c ≠ '\x5c')
      (h : Escaped body value) : Escaped (c :: body) (c :: value)
  | escape {c d : Char} {body value : List Char} (hc : (c, d) ∈ escapes) (h : Escaped body value) :
      Escaped ('\x5c' :: c :: body) (d :: value)

/-- A kind of token or of blank. -/
inductive Pattern where
  | blanks
  | comment
  | keyword (k : Keyword)
  | name
  | digits
  | string
  | mark (m : Mark)

/-- The texts of a kind. -/
def Pattern.Matches : Pattern → List Char → Prop
  | .blanks, w => w ≠ [] ∧ ∀ c ∈ w, isBlank c = true
  | .comment, w => ∃ v, w = '/' :: '/' :: v ∧ '\n' ∉ v
  | .keyword k, w => w = k.spelling.toList
  | .name, w => ∃ c v, w = c :: v ∧ isNameStart c = true ∧ ∀ d ∈ v, isNamePart d = true
  | .digits, w => w ≠ [] ∧ ∀ c ∈ w, c.isDigit = true
  | .string, w => ∃ body value, w = '\x22' :: (body ++ ['\x22']) ∧ Escaped body value
  | .mark m, w => w = m.spelling.toList

/-- The token that a text stands for. -/
def Denotes (w : List Char) : Token → Prop
  | .keyword k => (Pattern.keyword k).Matches w
  | .mark m => (Pattern.mark m).Matches w
  | .ident x =>
      Pattern.name.Matches w ∧ (∀ k, ¬ (Pattern.keyword k).Matches w) ∧ x = String.ofList w
  | .int n => Pattern.digits.Matches w ∧ n.toInt = decimal w
  | .str s => ∃ body, w = '\x22' :: (body ++ ['\x22']) ∧ Escaped body s.toList

/-- A text that can be completed to a string literal. -/
def Viable (w : List Char) : Prop := ∃ extra, Pattern.string.Matches (w ++ extra)

theorem unescape?_eq_some_iff {c d : Char} : unescape? c = some d ↔ (c, d) ∈ escapes := by
  unfold unescape? escapes
  constructor
  · intro h
    split_ifs at h with hn ht hq hb
    all_goals
      cases h
      simp [*]
  · intro h
    simp only [List.mem_cons, Prod.mk.injEq, List.not_mem_nil, or_false] at h
    rcases h with ⟨rfl, rfl⟩ | ⟨rfl, rfl⟩ | ⟨rfl, rfl⟩ | ⟨rfl, rfl⟩ <;> rfl

theorem isEscape_iff {c : Char} : isEscape c = true ↔ ∃ d, (c, d) ∈ escapes := by
  simp only [isEscape, Bool.or_eq_true, beq_iff_eq, escapes, List.mem_cons, Prod.mk.injEq,
    List.not_mem_nil, or_false]
  constructor
  · rintro (((rfl | rfl) | rfl) | rfl) <;> simp
  · rintro ⟨d, ⟨rfl, -⟩ | ⟨rfl, -⟩ | ⟨rfl, -⟩ | ⟨rfl, -⟩⟩ <;> simp

/-! ## Reading a string literal -/

/-- The escapes in a literal are replaced by what they stand for. -/
theorem unescapeBody_of_escaped {body value : List Char} (h : Escaped body value) :
    unescapeBody body = some value := by
  induction h with
  | nil => rfl
  | @plain c body value _ hbackslash _ ih =>
      cases body with
      | nil =>
          cases ih
          simp [unescapeBody, hbackslash]
      | cons d body => rw [unescapeBody, if_neg hbackslash, ih, Option.map_some]
  | escape hc _ ih =>
      simp only [unescapeBody, if_pos, unescape?_eq_some_iff.2 hc, ih, Option.map_some]

/-- What matches the pattern of string literals has a value. -/
theorem literal_of_escaped {body value : List Char} (h : Escaped body value) :
    Cut.literal ('\x22' :: (body ++ ['\x22'])) = .token (.str (String.ofList value)) := by
  rw [Cut.literal, Cut.unescape_quoted, unescapeBody_of_escaped h]

namespace StringBody

theorem read_plain {c : Char} (hquote : c ≠ '\x22') (hbackslash : c ≠ '\x5c') {cs : List Char}
    (hcs : cs ≠ []) : read (c :: cs) = push [c] (read cs) := by
  obtain ⟨d, cs, rfl⟩ := List.exists_cons_of_ne_nil hcs
  rw [read, if_neg hquote, if_neg hbackslash]

theorem read_backslash {c d : Char} (hc : (c, d) ∈ escapes) (cs : List Char) :
    read ('\x5c' :: c :: cs) = push ['\x5c', c] (read cs) := by
  rw [read, if_neg (by decide), if_pos rfl, if_pos (isEscape_iff.2 ⟨d, hc⟩)]

/-- A string literal is read up to its closing quote. -/
theorem read_of_escaped {body value : List Char} (h : Escaped body value) (cs : List Char) :
    read (body ++ '\x22' :: cs) = .closed (body ++ ['\x22']) cs := by
  induction h with
  | nil => cases cs <;> rfl
  | plain hquote hbackslash _ ih =>
      rw [List.cons_append, read_plain hquote hbackslash (by simp), ih]
      rfl
  | escape hc _ ih => rw [List.cons_append, List.cons_append, read_backslash hc, ih]; rfl

/-- What is read up to a closing quote is a string literal. -/
theorem escaped_of_read {cs text rest : List Char} (h : read cs = .closed text rest) :
    ∃ body value, text = body ++ ['\x22'] ∧ Escaped body value := by
  fun_induction read cs generalizing text rest with
  | case1 => cases h
  | case2 => cases h; exact ⟨[], [], rfl, .nil⟩
  | case3 => cases h
  | case4 => cases h; exact ⟨[], [], rfl, .nil⟩
  | case5 d cs he _ ih =>
      cases hread : read cs with
      | stuck text rest => rw [hread] at h; cases h
      | closed text' rest' =>
          rw [hread] at h
          cases h
          obtain ⟨body, value, rfl, hbody⟩ := ih hread
          obtain ⟨e, he⟩ := isEscape_iff.1 he
          exact ⟨'\x5c' :: d :: body, e :: value, rfl, .escape he hbody⟩
  | case6 => cases h
  | case7 c d cs hquote hbackslash ih =>
      cases hread : read (d :: cs) with
      | stuck text rest => rw [hread] at h; cases h
      | closed text' rest' =>
          rw [hread] at h
          cases h
          obtain ⟨body, value, rfl, hbody⟩ := ih hread
          exact ⟨c :: body, c :: value, rfl, .plain hquote hbackslash hbody⟩

/-- What can stand behind the opening quote at the front of a string literal. -/
def Completable (w : List Char) : Prop :=
  ∃ extra body value, w ++ extra = body ++ ['\x22'] ∧ Escaped body value

theorem completable_nil : Completable [] := ⟨['\x22'], [], [], rfl, .nil⟩

theorem completable_backslash : Completable ['\x5c'] :=
  ⟨['n', '\x22'], ['\x5c', 'n'], ['\n'], rfl, .escape (by decide) .nil⟩

theorem completable_plain {c : Char} (hquote : c ≠ '\x22') (hbackslash : c ≠ '\x5c')
    (w : List Char) : Completable (c :: w) ↔ Completable w := by
  constructor
  · rintro ⟨extra, body, value, hbody, hescaped⟩
    cases hescaped with
    | nil => exact absurd (List.cons.inj hbody).1 hquote
    | plain _ _ h => exact ⟨extra, _, _, (List.cons.inj hbody).2, h⟩
    | escape _ _ => exact absurd (List.cons.inj hbody).1 hbackslash
  · rintro ⟨extra, body, value, hbody, hescaped⟩
    exact ⟨extra, c :: body, c :: value, congrArg (c :: ·) hbody, .plain hquote hbackslash hescaped⟩

theorem completable_escape {d : Char} (w : List Char) :
    Completable ('\x5c' :: d :: w) ↔ (∃ e, (d, e) ∈ escapes) ∧ Completable w := by
  constructor
  · rintro ⟨extra, body, value, hbody, hescaped⟩
    cases hescaped with
    | nil => exact absurd (List.cons.inj hbody).1 (by decide)
    | plain _ hbackslash _ => exact absurd (List.cons.inj hbody).1.symm hbackslash
    | escape hc h =>
        obtain ⟨rfl, hrest⟩ := List.cons.inj (List.cons.inj hbody).2
        exact ⟨⟨_, hc⟩, extra, _, _, hrest, h⟩
  · rintro ⟨⟨e, he⟩, extra, body, value, hbody, hescaped⟩
    exact ⟨extra, '\x5c' :: d :: body, e :: value,
      congrArg (fun v => '\x5c' :: d :: v) hbody, .escape he hescaped⟩

/-- Reading gets stuck as late as possible: what has been read can still be completed, and nothing
longer can. -/
theorem completable_of_stuck {cs text rest : List Char} (h : read cs = .stuck text rest) :
    Completable text ∧ ∀ w, w <+: cs → Completable w → w.length ≤ text.length := by
  -- it gets stuck at the end of the text, or before a character that is no escape
  fun_induction read cs generalizing text rest with
  | case1 =>
      cases h
      exact ⟨completable_nil, fun w hw _ => hw.length_le⟩
  | case2 => cases h
  | case3 c hquote =>
      -- the last character of the text, which is not the closing quote
      cases h
      refine ⟨?_, fun w hw _ => hw.length_le⟩
      by_cases hbackslash : c = '\x5c'
      · exact hbackslash ▸ completable_backslash
      · exact (completable_plain hquote hbackslash []).2 completable_nil
  | case4 => cases h
  | case5 d cs he _ ih =>
      cases hread : read cs with
      | closed text rest => rw [hread] at h; cases h
      | stuck text' rest' =>
          rw [hread] at h
          cases h
          obtain ⟨htext, hlongest⟩ := ih hread
          refine ⟨(completable_escape _).2 ⟨isEscape_iff.1 he, htext⟩, ?_⟩
          intro w hw hcompletable
          rcases w with _ | ⟨a, _ | ⟨b, w⟩⟩
          · simp
          · simp
          · simp only [List.cons_prefix_cons] at hw
            obtain ⟨rfl, rfl, htail⟩ := hw
            have := hlongest w htail ((completable_escape w).1 hcompletable).2
            simpa using this
  | case6 d cs hnone _ =>
      -- a backslash in front of what is no escape
      cases h
      refine ⟨completable_backslash, fun w hw hcompletable => ?_⟩
      rcases w with _ | ⟨a, _ | ⟨b, w⟩⟩
      · simp
      · simp
      · simp only [List.cons_prefix_cons] at hw
        obtain ⟨rfl, rfl, -⟩ := hw
        exact absurd (isEscape_iff.2 ((completable_escape w).1 hcompletable).1) hnone
  | case7 c d cs hquote hbackslash ih =>
      cases hread : read (d :: cs) with
      | closed text rest => rw [hread] at h; cases h
      | stuck text' rest' =>
          rw [hread] at h
          cases h
          obtain ⟨htext, hlongest⟩ := ih hread
          refine ⟨(completable_plain hquote hbackslash _).2 htext, fun w hw hcompletable => ?_⟩
          cases w with
          | nil => simp
          | cons a w =>
              obtain ⟨rfl, htail⟩ := List.cons_prefix_cons.1 hw
              have := hlongest w htail ((completable_plain hquote hbackslash w).1 hcompletable)
              simpa using this

end StringBody

theorem viable_quote (w : List Char) : Viable ('\x22' :: w) ↔ StringBody.Completable w := by
  simp [Viable, StringBody.Completable, Pattern.Matches]

end Token

/-! ## Keywords and marks -/

theorem Keyword.matches_name (k : Keyword) : Token.Pattern.name.Matches k.spelling.toList := by
  cases k <;> exact ⟨_, _, rfl, by decide, List.all_eq_true.1 (by decide)⟩

namespace Mark

theorem ofChars?_eq_some {cs : List Char} {m : Mark} (h : ofChars? cs = some m) :
    m.spelling.toList = cs := by simpa using List.find?_some h

theorem ofChars?_spelling (m : Mark) : ofChars? m.spelling.toList = some m := by
  cases m <;> rfl

theorem spelling_forms (m : Mark) :
    (∃ c, m.spelling.toList = [c]) ∨ ∃ c d, m.spelling.toList = [c, d] := by
  have hlength : m.spelling.toList.length = 1 ∨ m.spelling.toList.length = 2 := by
    cases m <;> decide
  exact hlength.imp List.length_eq_one_iff.1 List.length_eq_two.1

/-- The longest mark at the front of a text stands there. -/
theorem spelling_of_longest? {cs : List Char} {m : Mark} (h : longest? cs = some m) :
    m.spelling.toList <+: cs := by
  match cs, h with
  | [], h => cases h
  | [c], h => exact (ofChars?_eq_some h).symm ▸ List.prefix_refl _
  | c :: d :: cs, h =>
      rw [longest?] at h
      rcases Option.or_eq_some_iff.1 h with h | ⟨-, h⟩
      · rw [ofChars?_eq_some h]
        exact ⟨cs, rfl⟩
      · rw [ofChars?_eq_some h]
        exact ⟨d :: cs, rfl⟩

/-- A mark of one character is found, or a longer one. -/
theorem longest?_isSome {c : Char} {m : Mark} (h : ofChars? [c] = some m) (cs : List Char) :
    ∃ m', longest? (c :: cs) = some m' := by
  cases cs with
  | nil => exact ⟨m, h⟩
  | cons d cs =>
      rw [longest?, h]
      cases ofChars? [c, d] with
      | none => exact ⟨m, rfl⟩
      | some m' => exact ⟨m', rfl⟩

end Mark

/-! ## The front of a text -/

namespace Cut

open Token

theorem front_of_isBlank {c : Char} (h : isBlank c = true) (cs : List Char) :
    front c cs = run isBlank c cs fun _ => .blank := by rw [front, if_pos h]

theorem front_comment (cs : List Char) :
    front '/' ('/' :: cs) = run (fun d => d != '\n') '/' ('/' :: cs) fun _ => .blank := rfl

theorem front_of_isNameStart {c : Char} (h : isNameStart c = true) (cs : List Char) :
    front c cs = run isNamePart c cs name := by
  have hslash : c ≠ '/' := by
    rintro rfl
    revert h
    decide
  rw [front, isBlank_of_isNameStart h, if_neg (by simp), if_neg (fun h => hslash h.1), if_pos h]

theorem front_of_isDigit {c : Char} (h : c.isDigit = true) (cs : List Char) :
    front c cs = run Char.isDigit c cs number := by
  have hslash : c ≠ '/' := by
    rintro rfl
    revert h
    decide
  rw [front, isBlank_of_isDigit h, if_neg (by simp), if_neg (fun h => hslash h.1),
    isNameStart_of_isDigit h, if_neg (by simp), if_pos h]

theorem front_quote (cs : List Char) : front '\x22' cs = string '\x22' (StringBody.read cs) := rfl

/-- What is cut off at a quote: a string literal with its value, or a fault. -/
theorem string_cases (cs : List Char) :
    (∃ body value rest, Escaped body value ∧ string '\x22' (StringBody.read cs)
        = ⟨.token (.str (String.ofList value)), '\x22' :: (body ++ ['\x22']), rest⟩) ∨
      ∃ text rest, StringBody.read cs = .stuck text rest ∧ string '\x22' (StringBody.read cs)
        = ⟨.fault (.unrecognized ('\x22' :: text)), '\x22' :: text, rest⟩ := by
  cases hread : StringBody.read cs with
  | stuck text rest => exact .inr ⟨text, rest, rfl, rfl⟩
  | closed text rest =>
      obtain ⟨body, value, rfl, hescaped⟩ := StringBody.escaped_of_read hread
      refine .inl ⟨body, value, rest, hescaped, ?_⟩
      rw [string, literal_of_escaped hescaped]

/-- A mark of two characters is cut off as a whole. -/
theorem front_pair {m : Mark} {c d : Char} (h : m.spelling.toList = [c, d]) (cs : List Char) :
    front c (d :: cs) = ⟨.token (.mark m), [c, d], cs⟩ := by
  cases m <;> cases h <;> rfl

/-- A run takes all characters of its class. -/
theorem length_le_run {p : Char → Bool} {a c : Char} {w cs : List Char} (hw : a :: w <+: c :: cs)
    (hp : ∀ d ∈ w, p d = true) (piece : List Char → Piece) :
    (a :: w).length ≤ (run p c cs piece).text.length := by
  obtain ⟨tail, rfl⟩ := (List.cons_prefix_cons.1 hw).2
  simp [run, List.takeWhile_append_of_pos hp]

/-! ## The longest match -/

/-- A cut that finds something which is no token has found a number or nothing at all. -/
def IsUnrecognized (cut : Cut) : Prop := ∃ text, cut.piece = .fault (.unrecognized text)

theorem not_isUnrecognized_blank {p : Char → Bool} {c : Char} {cs : List Char} :
    ¬ (run p c cs fun _ => .blank).IsUnrecognized := by
  rintro ⟨text, h⟩
  cases h

theorem not_isUnrecognized_name {p : Char → Bool} {c : Char} {cs : List Char} :
    ¬ (run p c cs name).IsUnrecognized := by
  rintro ⟨text, h⟩
  simp only [run, name] at h
  split at h <;> cases h

theorem not_isUnrecognized_number {p : Char → Bool} {c : Char} {cs : List Char} :
    ¬ (run p c cs number).IsUnrecognized := by
  rintro ⟨text, h⟩
  simp only [run, number] at h
  split at h <;> cases h

/-- Where a mark of one character stands, there is no fault. -/
theorem not_isUnrecognized_of_ofChars? {c : Char} {m : Mark} (h : Mark.ofChars? [c] = some m)
    (cs : List Char) : ¬ (front c cs).IsUnrecognized := by
  unfold front
  split_ifs with hblank hcomment hname hdigit hquote
  · exact not_isUnrecognized_blank
  · exact not_isUnrecognized_blank
  · exact not_isUnrecognized_name
  · exact not_isUnrecognized_number
  · subst hquote
    cases h
  · obtain ⟨m', hm'⟩ := Mark.longest?_isSome h cs
    rintro ⟨text, htext⟩
    rw [mark, hm'] at htext
    cases htext

theorem front_longest_name {w : List Char} (hp : Pattern.name.Matches w) {c : Char} {cs : List Char}
    (hw : w <+: c :: cs) :
    w.length ≤ (front c cs).text.length ∧ ¬ (front c cs).IsUnrecognized := by
  obtain ⟨a, v, rfl, ha, hv⟩ := hp
  obtain ⟨rfl, -⟩ := List.cons_prefix_cons.1 hw
  rw [front_of_isNameStart ha]
  exact ⟨length_le_run hw hv _, not_isUnrecognized_name⟩

/-- **Longest match.** Nothing that matches a pattern is longer than what is cut off, and where a
pattern matches, something is recognized. -/
theorem front_longest {p : Pattern} {w : List Char} (hp : p.Matches w) {c : Char} {cs : List Char}
    (hw : w <+: c :: cs) :
    w.length ≤ (front c cs).text.length ∧ ¬ (front c cs).IsUnrecognized := by
  cases p with
  | blanks =>
      obtain ⟨hne, hblank⟩ := hp
      obtain ⟨a, v, rfl⟩ := List.exists_cons_of_ne_nil hne
      obtain ⟨rfl, -⟩ := List.cons_prefix_cons.1 hw
      rw [front_of_isBlank (hblank a (by simp))]
      exact ⟨length_le_run hw (fun d hd => hblank d (by simp [hd])) _, not_isUnrecognized_blank⟩
  | comment =>
      obtain ⟨v, rfl, hv⟩ := hp
      obtain ⟨rfl, hcs⟩ := List.cons_prefix_cons.1 hw
      obtain ⟨tail, rfl⟩ := hcs
      rw [List.cons_append, front_comment]
      refine ⟨length_le_run hw (fun d hd => ?_) _, not_isUnrecognized_blank⟩
      rcases List.mem_cons.1 hd with rfl | hd
      · rfl
      · exact bne_iff_ne.2 fun heq => hv (heq ▸ hd)
  | keyword k =>
      obtain rfl : w = k.spelling.toList := hp
      exact front_longest_name k.matches_name hw
  | name => exact front_longest_name hp hw
  | digits =>
      obtain ⟨hne, hdigit⟩ := hp
      obtain ⟨a, v, rfl⟩ := List.exists_cons_of_ne_nil hne
      obtain ⟨rfl, -⟩ := List.cons_prefix_cons.1 hw
      rw [front_of_isDigit (hdigit a (by simp))]
      exact ⟨length_le_run hw (fun d hd => hdigit d (by simp [hd])) _, not_isUnrecognized_number⟩
  | string =>
      obtain ⟨body, value, rfl, hescaped⟩ := hp
      obtain ⟨rfl, hcs⟩ := List.cons_prefix_cons.1 hw
      obtain ⟨tail, rfl⟩ := hcs
      rw [List.append_assoc, List.singleton_append, front_quote,
        StringBody.read_of_escaped hescaped, string, literal_of_escaped hescaped]
      refine ⟨Nat.le_refl _, ?_⟩
      rintro ⟨text, htext⟩
      cases htext
  | mark m =>
      obtain rfl : w = m.spelling.toList := hp
      rcases m.spelling_forms with ⟨a, hm⟩ | ⟨a, b, hm⟩
      · rw [hm] at hw ⊢
        obtain ⟨rfl, -⟩ := List.cons_prefix_cons.1 hw
        refine ⟨List.length_pos_iff.2 (text_ne_nil a cs), ?_⟩
        exact not_isUnrecognized_of_ofChars? (hm ▸ m.ofChars?_spelling) cs
      · rw [hm] at hw ⊢
        obtain ⟨rfl, hcs⟩ := List.cons_prefix_cons.1 hw
        obtain ⟨tail, rfl⟩ := hcs
        rw [List.singleton_append, front_pair hm]
        refine ⟨Nat.le_refl _, ?_⟩
        rintro ⟨text, htext⟩
        cases htext

/-! ## What a piece is -/

theorem all_takeWhile (p : Char → Bool) (cs : List Char) : ∀ c ∈ cs.takeWhile p, p c = true :=
  List.all_eq_true.1 List.all_takeWhile

/-- A blank is a run of white space or a comment. -/
theorem front_blank {c : Char} {cs : List Char} (h : (front c cs).piece = .blank) :
    Pattern.blanks.Matches (front c cs).text ∨ Pattern.comment.Matches (front c cs).text := by
  by_cases hblank : isBlank c = true
  · left
    rw [front_of_isBlank hblank]
    exact ⟨by simp [run], List.forall_mem_cons.2 ⟨hblank, all_takeWhile isBlank cs⟩⟩
  by_cases hcomment : c = '/' ∧ cs.head? = some '/'
  · right
    obtain ⟨rfl, hhead⟩ := hcomment
    obtain ⟨tail, rfl⟩ := List.head?_eq_some_iff.1 hhead
    refine ⟨tail.takeWhile fun d => d != '\n', rfl, fun hmem => ?_⟩
    have := all_takeWhile (fun d => d != '\n') tail _ hmem
    simp at this
  -- in the other cases, a token or a fault is found
  exfalso
  rw [front, if_neg hblank, if_neg hcomment] at h
  split_ifs at h with _ _ hquote
  · simp only [run, name] at h
    split at h <;> cases h
  · simp only [run, number] at h
    split at h <;> cases h
  · subst hquote
    rcases string_cases cs with ⟨_, _, _, -, heq⟩ | ⟨_, _, -, heq⟩ <;> rw [heq] at h <;> cases h
  · rw [mark] at h
    split at h <;> cases h

theorem denotes_name {c : Char} {v : List Char} (hc : isNameStart c = true)
    (hv : ∀ d ∈ v, isNamePart d = true) {t : Token} (h : name (c :: v) = .token t) :
    Denotes (c :: v) t := by
  unfold name at h
  split at h
  · rename_i k hk
    cases h
    have hspelling : k.spelling = String.ofList (c :: v) := by simpa using List.find?_some hk
    simp [Denotes, Pattern.Matches, hspelling]
  · rename_i hnone
    cases h
    refine ⟨⟨c, v, rfl, hc, hv⟩, fun k hk => ?_, rfl⟩
    have hall : k ∈ Keyword.all := by cases k <;> decide
    have hne := List.find?_eq_none.1 hnone k hall
    rw [show c :: v = k.spelling.toList from hk, String.ofList_toList] at hne
    simp at hne

theorem denotes_number {w : List Char} (hw : Pattern.digits.Matches w) {t : Token}
    (h : number w = .token t) : Denotes w t := by
  unfold number at h
  split at h
  · rename_i hmax
    cases h
    refine ⟨hw, ?_⟩
    rw [Int64.toInt_ofNat_of_lt (by simp only [maxInt] at hmax; omega)]
  · cases h

/-- A token is what its text stands for. -/
theorem front_denotes {c : Char} {cs : List Char} {t : Token} (h : (front c cs).piece = .token t) :
    Denotes (front c cs).text t := by
  unfold front at h ⊢
  split_ifs at h ⊢ with hblank hcomment hname hdigit hquote
  · cases h
  · cases h
  · exact denotes_name hname (all_takeWhile isNamePart cs) h
  · exact denotes_number ⟨by simp, List.forall_mem_cons.2 ⟨hdigit, all_takeWhile _ cs⟩⟩ h
  · subst hquote
    rcases string_cases cs with ⟨body, value, rest, hescaped, heq⟩ | ⟨text, rest, -, heq⟩
    · rw [heq] at h ⊢
      cases h
      exact ⟨body, rfl, by simpa using hescaped⟩
    · rw [heq] at h
      cases h
  · unfold mark at h ⊢
    split at h
    · rename_i m hm
      cases h
      obtain ⟨tail, htail⟩ := Mark.spelling_of_longest? hm
      have hpos : 0 < m.spelling.length := by
        rcases m.spelling_forms with ⟨a, hm⟩ | ⟨a, b, hm⟩ <;> simp [← String.length_toList, hm]
      have hlength : max 1 m.spelling.length = m.spelling.toList.length := by
        rw [String.length_toList]
        omega
      simp only [hlength, ← htail, List.take_left']
      rfl
    · cases h

/-- A number that is out of range is given with all its digits. -/
theorem front_outOfRange {c : Char} {cs digits : List Char}
    (h : (front c cs).piece = .fault (.outOfRange digits)) :
    c.isDigit = true ∧ maxInt < decimal (front c cs).text := by
  unfold front at h ⊢
  split_ifs at h ⊢ with hblank hcomment hname hdigit hquote
  · cases h
  · cases h
  · simp only [run, name] at h
    split at h <;> cases h
  · refine ⟨hdigit, ?_⟩
    simp only [run, number] at h ⊢
    split at h
    · cases h
    · rename_i hmax
      exact Nat.lt_of_not_le hmax
  · subst hquote
    rcases string_cases cs with ⟨_, _, _, -, heq⟩ | ⟨_, _, -, heq⟩ <;> rw [heq] at h <;> cases h
  · rw [mark] at h
    split at h <;> cases h

/-- Where nothing is recognized, the fault is one character or a string literal as far as it can
still be completed. -/
theorem front_unrecognized {c : Char} {cs : List Char} (h : (front c cs).IsUnrecognized) :
    ((front c cs).text = [c] ∧ c ≠ '\x22') ∨
      (c = '\x22' ∧ Viable (front c cs).text ∧
        ∀ w, w <+: c :: cs → Viable w → w.length ≤ (front c cs).text.length) := by
  obtain ⟨u, h⟩ := h
  unfold front at h ⊢
  split_ifs at h ⊢ with hblank hcomment hname hdigit hquote
  · cases h
  · cases h
  · exact absurd ⟨u, h⟩ not_isUnrecognized_name
  · exact absurd ⟨u, h⟩ not_isUnrecognized_number
  · right
    subst hquote
    rcases string_cases cs with ⟨body, value, rest, -, heq⟩ | ⟨text, rest, hread, heq⟩
    · rw [heq] at h
      cases h
    · obtain ⟨htext, hlongest⟩ := StringBody.completable_of_stuck hread
      rw [heq]
      refine ⟨rfl, (viable_quote text).2 htext, fun w hw hviable => ?_⟩
      cases w with
      | nil => simp
      | cons a w =>
          obtain ⟨rfl, htail⟩ := List.cons_prefix_cons.1 hw
          simpa using hlongest w htail ((viable_quote w).1 hviable)
  · left
    unfold mark at h ⊢
    split at h
    · cases h
    · exact ⟨rfl, hquote⟩

end Cut

end Rivulet
