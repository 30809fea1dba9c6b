import Rivulet.Token.Lexer
import Mathlib.Tactic

set_option autoImplicit false

/-! # Writing tokens down

How a list of tokens is written so that the lexer reads it back. Every token is written by its
spelling, a string with its escapes put in again, and followed by a blank (`Token.spell`). A token
that carries a value must be one that a text can hold: a name must look like a name and not be a
keyword, and an integer must not be negative (`Token.isSpellable`).

The lexer takes the longest piece it can, so the point of each case below is that a piece ends at
the blank behind it. -/

namespace Rivulet

namespace Token

/-! ## Spellings -/

/-- Whether a text is a name that is no keyword. -/
def isName (x : String) : Bool :=
  match x.toList with
  | [] => false
  | c :: cs => isNameStart c && cs.all isNamePart && (Keyword.ofSpelling? x).isNone

/-- A character inside of a string literal. -/
def escape (c : Char) : List Char :=
  if c = '\n' then ['\x5c', 'n']
  else if c = '\t' then ['\x5c', 't']
  else if c = '\x22' then ['\x5c', '\x22']
  else if c = '\x5c' then ['\x5c', '\x5c']
  else [c]

/-- The token as it is written. -/
def spelling : Token → List Char
  | .keyword k => k.spelling.toList
  | .mark m => m.spelling.toList
  | .ident x => x.toList
  | .int n => Nat.toDigits 10 n.toNatClampNeg
  | .str s => '\x22' :: (s.toList.flatMap escape ++ ['\x22'])

/-- Whether the token can be written: its value is one that a text can hold. -/
def isSpellable : Token → Bool
  | .ident x => isName x
  | .int n => 0 ≤ n.toInt
  | _ => true

/-- Tokens as they are written, with a blank behind each. -/
def spell (ts : List Token) : List Char := ts.flatMap fun t => t.spelling ++ [' ']

/-! ## Character classes -/

theorem exists_of_isName {x : String} (h : isName x = true) :
    ∃ c w, x.toList = c :: w ∧ isNameStart c = true ∧ (∀ d ∈ w, isNamePart d = true) ∧
      Keyword.ofSpelling? x = none := by
  unfold isName at h
  split at h
  · cases h
  · rename_i c w hx
    simp only [Bool.and_eq_true, List.all_eq_true, Option.isNone_iff_eq_none] at h
    exact ⟨c, w, hx, h.1.1, h.1.2, h.2⟩

theorem isBlank_of_isNameStart {c : Char} (h : isNameStart c = true) : isBlank c = false := by
  by_contra hblank
  simp only [isBlank, Bool.not_eq_false, Bool.or_eq_true, beq_iff_eq] at hblank
  rcases hblank with (((rfl | rfl) | rfl) | rfl) | rfl <;> revert h <;> decide

theorem isBlank_of_isDigit {c : Char} (h : c.isDigit = true) : isBlank c = false := by
  by_contra hblank
  simp only [isBlank, Bool.not_eq_false, Bool.or_eq_true, beq_iff_eq] at hblank
  rcases hblank with (((rfl | rfl) | rfl) | rfl) | rfl <;> revert h <;> decide

theorem isNameStart_of_isDigit {c : Char} (h : c.isDigit = true) : isNameStart c = false := by
  by_contra hname
  have hclasses : (decide ('A'.val ≤ c.val ∧ c.val ≤ 'Z'.val) ||
      (decide ('a'.val ≤ c.val) && decide (c.val ≤ 'z'.val)) || c == '_') = true :=
    Bool.eq_true_of_not_eq_false hname
  simp only [Bool.or_eq_true, Bool.and_eq_true, decide_eq_true_eq, beq_iff_eq] at hclasses
  simp only [Char.isDigit, Bool.and_eq_true, decide_eq_true_eq] at h
  rcases hclasses with (hupper | hlower) | rfl
  · exact absurd (UInt32.le_trans hupper.1 h.2) (by decide)
  · exact absurd (UInt32.le_trans hlower.1 h.2) (by decide)
  · exact absurd h.2 (by decide)

end Token

/-! ## Cutting off one token -/

namespace Cut

open Token

/-- A run ends at the first character outside of its class. -/
theorem run_append {p : Char → Bool} {w : List Char} (hw : ∀ x ∈ w, p x = true) {d : Char}
    (hd : p d = false) (c : Char) (cs : List Char) (piece : List Char → Piece) :
    run p c (w ++ d :: cs) piece = ⟨piece (c :: w), c :: w, d :: cs⟩ := by
  have htake : (w ++ d :: cs).takeWhile p = w := by
    rw [List.takeWhile_append_of_pos hw, List.takeWhile_cons_of_neg (by simp [hd]), List.append_nil]
  have hdrop : (w ++ d :: cs).dropWhile p = d :: cs := by
    rw [List.dropWhile_append_of_pos hw, List.dropWhile_cons_of_neg (by simp [hd])]
  rw [run, htake, hdrop]

theorem front_name {c : Char} {w : List Char} (hc : isNameStart c = true)
    (hw : ∀ x ∈ w, isNamePart x = true) (cs : List Char) :
    front c (w ++ ' ' :: cs) = ⟨name (c :: w), c :: w, ' ' :: cs⟩ := by
  have hslash : c ≠ '/' := by
    rintro rfl
    revert hc
    decide
  rw [front, isBlank_of_isNameStart hc, if_neg (by simp), if_neg (fun h => hslash h.1), if_pos hc]
  exact run_append hw (by decide) c cs name

theorem front_number {c : Char} {w : List Char} (hc : c.isDigit = true)
    (hw : ∀ x ∈ w, x.isDigit = true) (cs : List Char) :
    front c (w ++ ' ' :: cs) = ⟨number (c :: w), c :: w, ' ' :: cs⟩ := by
  have hslash : c ≠ '/' := by
    rintro rfl
    revert hc
    decide
  rw [front, isBlank_of_isDigit hc, if_neg (by simp), if_neg (fun h => hslash h.1),
    isNameStart_of_isDigit hc, if_neg (by simp), if_pos hc]
  exact run_append hw (by decide) c cs number

theorem name_ident {x : String} (h : Keyword.ofSpelling? x = none) :
    name x.toList = .token (.ident x) := by
  simp [name, h]

/-- The digits of a number that is not negative give the number back. -/
theorem number_toDigits {n : Int64} (h : 0 ≤ n.toInt) :
    number (Nat.toDigits 10 n.toNatClampNeg) = .token (.int n) := by
  have hvalue : decimal (Nat.toDigits 10 n.toNatClampNeg) = n.toNatClampNeg := by
    have hfold := Nat.ofDigitChars_ten_toDigits (n := n.toNatClampNeg)
    rw [Nat.ofDigitChars_eq_foldl] at hfold
    exact hfold
  have hmax : n.toNatClampNeg ≤ maxInt := by
    have := n.toInt_lt
    simp only [← Int64.toNat_toInt, maxInt]
    omega
  have hback : Int64.ofNat n.toNatClampNeg = n := by
    apply Int64.toInt_inj.1
    have := n.toInt_lt
    rw [Int64.toInt_ofNat_of_lt (by simp only [← Int64.toNat_toInt]; omega), ← Int64.toNat_toInt]
    omega
  rw [number, hvalue, if_pos hmax, hback]

/-- A string literal is read character by character. -/
theorem read_escape (c : Char) {cs : List Char} (hcs : cs ≠ []) :
    StringBody.read (escape c ++ cs) = StringBody.push (escape c) (StringBody.read cs) := by
  obtain ⟨d, cs, rfl⟩ := List.exists_cons_of_ne_nil hcs
  unfold escape
  split_ifs with hn ht hq hb
  · rfl
  · rfl
  · rfl
  · rfl
  · simp only [List.cons_append, List.nil_append, StringBody.read, if_neg hq, if_neg hb]

theorem read_string (s cs : List Char) :
    StringBody.read (s.flatMap escape ++ '\x22' :: cs)
      = .closed (s.flatMap escape ++ ['\x22']) cs := by
  induction s with
  | nil => cases cs <;> rfl
  | cons c s ih =>
      rw [List.flatMap_cons, List.append_assoc, read_escape c (by simp), ih, StringBody.push,
        List.append_assoc]

/-- The value of a string literal is computed character by character. -/
theorem unescapeBody_escape (c : Char) (cs : List Char) :
    unescapeBody (escape c ++ cs) = (unescapeBody cs).map (c :: ·) := by
  unfold escape
  split_ifs with hn ht hq hb
  · subst hn; rfl
  · subst ht; rfl
  · subst hq; rfl
  · subst hb; rfl
  · cases cs with
    | nil => simp [unescapeBody, hb]
    | cons d cs => simp only [List.cons_append, List.nil_append, unescapeBody, if_neg hb]

theorem unescapeBody_flatMap_escape (s : List Char) : unescapeBody (s.flatMap escape) = some s := by
  induction s with
  | nil => rfl
  | cons c s ih => rw [List.flatMap_cons, unescapeBody_escape, ih, Option.map_some]

/-- Between quotes, a text stands for what its escapes stand for. -/
theorem unescape_quoted (body : List Char) :
    unescape ('\x22' :: (body ++ ['\x22'])) = unescapeBody body := by
  simp [unescape]

/-- A token in front of a blank is cut off as a whole. -/
theorem front_spelling {t : Token} (ht : t.isSpellable = true) (cs : List Char) :
    ∃ c w, t.spelling = c :: w ∧ isBlank c = false ∧
      front c (w ++ ' ' :: cs) = ⟨.token t, t.spelling, ' ' :: cs⟩ := by
  cases t with
  | keyword k => cases k <;> exact ⟨_, _, rfl, by decide, rfl⟩
  | mark m => cases m <;> exact ⟨_, _, rfl, by decide, rfl⟩
  | ident x =>
      obtain ⟨c, w, hx, hc, hw, hkeyword⟩ := exists_of_isName ht
      refine ⟨c, w, hx, isBlank_of_isNameStart hc, ?_⟩
      rw [front_name hc hw, ← hx, name_ident hkeyword]
      rfl
  | int n =>
      have hn : 0 ≤ n.toInt := by simpa [isSpellable] using ht
      -- the spelling is a run of digits, and it is not empty
      have hdigits : ∀ x ∈ Nat.toDigits 10 n.toNatClampNeg, x.isDigit = true :=
        fun x hx => Nat.isDigit_of_mem_toDigits (by omega) (by omega) hx
      obtain ⟨c, w, hcw⟩ := List.exists_cons_of_ne_nil
        (Nat.toDigits_ne_nil (n := n.toNatClampNeg) (b := 10))
      rw [hcw] at hdigits
      have hc := hdigits c (by simp)
      refine ⟨c, w, hcw, isBlank_of_isDigit hc, ?_⟩
      rw [front_number hc (fun x hx => hdigits x (List.mem_cons_of_mem _ hx)), ← hcw,
        number_toDigits hn]
      rfl
  | str s =>
      refine ⟨'\x22', _, rfl, by decide, ?_⟩
      have hfront : ∀ cs, front '\x22' cs = string '\x22' (StringBody.read cs) := fun _ => rfl
      rw [hfront, List.append_assoc, List.singleton_append, read_string, string, literal,
        unescape_quoted, unescapeBody_flatMap_escape]
      simp [spelling]

end Cut

/-! ## Cutting a text -/

namespace Token

/-- What is written starts with no blank. -/
theorem dropWhile_isBlank_spell {ts : List Token} (hts : ∀ t ∈ ts, t.isSpellable = true) :
    (spell ts).dropWhile isBlank = spell ts := by
  cases ts with
  | nil => rfl
  | cons t ts =>
      obtain ⟨c, w, hcw, hc, -⟩ := Cut.front_spelling (hts t (by simp)) []
      simp [spell, hcw, hc]

/-- The pieces of what is written are its tokens, and blanks. -/
theorem pieces_spell {ts : List Token} (hts : ∀ t ∈ ts, t.isSpellable = true) (offset : Nat) :
    ((pieces offset (spell ts)).filterMap lexeme?).map Lexeme.token = ts ∧
      (pieces offset (spell ts)).filterMap diagnostic? = [] := by
  induction ts generalizing offset with
  | nil => simp [spell, pieces]
  | cons t ts ih =>
      have hrest : ∀ t ∈ ts, t.isSpellable = true := fun x hx => hts x (List.mem_cons_of_mem _ hx)
      obtain ⟨c, w, hcw, -, hfront⟩ := Cut.front_spelling (hts t (by simp)) (spell ts)
      have hspell : spell (t :: ts) = c :: (w ++ ' ' :: spell ts) := by simp [spell, hcw]
      have hblank : Cut.front ' ' (spell ts)
          = ⟨.blank, ' ' :: (spell ts).takeWhile isBlank, spell ts⟩ := by
        simp only [Cut.front, Cut.run, dropWhile_isBlank_spell hrest]
        rfl
      rw [hspell, pieces, hfront]
      dsimp only
      rw [pieces, hblank]
      simp only [List.filterMap_cons, lexeme?, diagnostic?, List.map_cons, List.cons.injEq,
        true_and]
      exact ih hrest _

/-- The lexer reads back what is written. -/
theorem lex_spell {ts : List Token} (hts : ∀ t ∈ ts, t.isSpellable = true) :
    (lex (String.ofList (spell ts))).value.map Lexeme.token = ts ∧
      (lex (String.ofList (spell ts))).findings = [] := by
  simpa [lex] using pieces_spell hts 0

end Token

end Rivulet
