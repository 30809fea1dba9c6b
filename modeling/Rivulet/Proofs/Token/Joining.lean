import Rivulet.Proofs.Token.Patterns
import Mathlib.Data.List.TakeWhile

set_option autoImplicit false

/-! # Tokens joined by blanks

Tokens that are written one behind the other, with a single blank between any two of them
(`Token.joined`), are read back as they were, and nothing is reported (`Token.lex_joined`). Every
token but the last ends at a blank, for which `Cut.front_spelling` is enough; the last one ends at the
end of the text.

String literals are read in two steps, and the second never rejects what the first has found: every
text that matches the pattern of string literals has a value, and the value of an escaped text is the
text itself. -/

namespace Rivulet

/-! ## The last token -/

namespace Cut

open Token

/-- A run ends at the end of the text. -/
theorem run_all {p : Char → Bool} {w : List Char} (hw : ∀ x ∈ w, p x = true) (c : Char)
    (piece : List Char → Piece) : run p c w piece = ⟨piece (c :: w), c :: w, []⟩ := by
  have htake : w.takeWhile p = w := List.takeWhile_eq_self_iff.2 hw
  have hdrop : w.dropWhile p = [] := List.dropWhile_eq_nil_iff.2 hw
  rw [run, htake, hdrop]

/-- A token at the end of a text is cut off as a whole. -/
theorem front_spelling_end {t : Token} (ht : t.isSpellable = true) :
    ∃ c w, t.spelling = c :: w ∧ front c w = ⟨.token t, t.spelling, []⟩ := by
  cases t with
  | keyword k => cases k <;> exact ⟨_, _, rfl, rfl⟩
  | mark m => cases m <;> exact ⟨_, _, rfl, rfl⟩
  | ident x =>
      obtain ⟨c, w, hx, hc, hw, hkeyword⟩ := exists_of_isName ht
      refine ⟨c, w, hx, ?_⟩
      rw [front_of_isNameStart hc, run_all hw, ← hx, name_ident hkeyword]
      rfl
  | int n =>
      have hn : 0 ≤ n.toInt := by simpa [isSpellable] using ht
      have hdigits : ∀ x ∈ Nat.toDigits 10 n.toNatClampNeg, x.isDigit = true :=
        fun x hx => Nat.isDigit_of_mem_toDigits (by omega) (by omega) hx
      obtain ⟨c, w, hcw⟩ := List.exists_cons_of_ne_nil
        (Nat.toDigits_ne_nil (n := n.toNatClampNeg) (b := 10))
      rw [hcw] at hdigits
      refine ⟨c, w, hcw, ?_⟩
      rw [front_of_isDigit (hdigits c (by simp)),
        run_all (fun x hx => hdigits x (List.mem_cons_of_mem _ hx)), ← hcw, number_toDigits hn]
      rfl
  | str s =>
      refine ⟨'\x22', _, rfl, ?_⟩
      rw [front_quote, read_string, string, literal, unescape_quoted, unescapeBody_flatMap_escape]
      simp [spelling]

end Cut

namespace Token

/-! ## String literals -/

/-- A text that matches the pattern of string literals is read as the string that is its value,
whatever comes behind it. -/
theorem tokens_of_matches_string {w : List Char} (hw : Pattern.string.Matches w) :
    ∃ value, unescape w = some value ∧
      ∀ cs, tokens (w ++ cs) = .str (String.ofList value) :: tokens cs := by
  obtain ⟨body, value, rfl, hescaped⟩ := hw
  refine ⟨value, ?_, fun cs => ?_⟩
  · rw [Cut.unescape_quoted, unescapeBody_of_escaped hescaped]
  · have hfront : Cut.front '\x22' (body ++ '\x22' :: cs)
        = ⟨.token (.str (String.ofList value)), '\x22' :: (body ++ ['\x22']), cs⟩ := by
      rw [Cut.front_quote, StringBody.read_of_escaped hescaped, Cut.string,
        literal_of_escaped hescaped]
    rw [List.cons_append, List.append_assoc, List.singleton_append, tokens, hfront]

theorem unescape_spelling_str (s : String) : unescape (spelling (.str s)) = some s.toList := by
  rw [spelling, Cut.unescape_quoted, Cut.unescapeBody_flatMap_escape]

/-! ## Whole texts -/

/-- Tokens as they are written, with a blank between any two neighbours. -/
def joined (ts : List Token) : List Char := [' '].intercalate (ts.map spelling)

theorem joined_cons_cons (t u : Token) (ts : List Token) :
    joined (t :: u :: ts) = t.spelling ++ ' ' :: joined (u :: ts) := by
  rw [joined, List.map_cons, List.map_cons, List.intercalate_cons_cons, List.append_assoc]
  rfl

theorem joined_singleton (t : Token) : joined [t] = t.spelling := List.intercalate_singleton

/-- A blank in front of joined tokens is a piece of its own. -/
theorem front_blank_joined {t : Token} (ht : t.isSpellable = true) (ts : List Token) :
    Cut.front ' ' (joined (t :: ts)) = ⟨.blank, [' '], joined (t :: ts)⟩ := by
  -- a run of blanks goes on as long as it can, but no token starts with a blank
  obtain ⟨c, w, hcw, hc, -⟩ := Cut.front_spelling ht []
  obtain ⟨tail, htail⟩ : ∃ tail, joined (t :: ts) = c :: tail := by
    cases ts with
    | nil => exact ⟨w, by rw [joined_singleton, hcw]⟩
    | cons u ts => exact ⟨w ++ ' ' :: joined (u :: ts), by rw [joined_cons_cons, hcw]; rfl⟩
  rw [htail, Cut.front_of_isBlank (by decide), Cut.run]
  simp [hc]

/-- The pieces of joined tokens are the tokens, and blanks. -/
theorem pieces_joined {ts : List Token} (hts : ∀ t ∈ ts, t.isSpellable = true) (offset : Nat) :
    ((pieces offset (joined ts)).filterMap lexeme?).map Lexeme.token = ts ∧
      (pieces offset (joined ts)).filterMap diagnostic? = [] := by
  -- a token and the blank behind it are two pieces; the induction is on the rest
  induction ts generalizing offset with
  | nil => simp [joined, List.intercalate, pieces]
  | cons t ts ih =>
      cases ts with
      | nil =>
          obtain ⟨c, w, hcw, hfront⟩ := Cut.front_spelling_end (hts t (by simp))
          rw [joined_singleton, hcw, pieces, hfront]
          simp [pieces, lexeme?, diagnostic?]
      | cons u ts =>
          obtain ⟨c, w, hcw, -, hfront⟩ :=
            Cut.front_spelling (hts t (by simp)) (joined (u :: ts))
          have hjoined : joined (t :: u :: ts) = c :: (w ++ ' ' :: joined (u :: ts)) := by
            rw [joined_cons_cons, hcw]
            rfl
          rw [hjoined, pieces, hfront]
          dsimp only
          rw [pieces, front_blank_joined (hts u (by simp))]
          simp only [List.filterMap_cons, lexeme?, diagnostic?, List.map_cons, List.cons.injEq,
            true_and]
          exact ih (fun x hx => hts x (List.mem_cons_of_mem _ hx)) _

/-- **Lexing undoes spelling.** Joined tokens are read back without a report. Every text that matches
the pattern of string literals has a value, with which it is read wherever it stands; and escaping a
text is undone. -/
theorem lex_joined {ts : List Token} (hts : ∀ t ∈ ts, t.isSpellable = true) :
    ((lex (String.ofList (joined ts))).value.map Lexeme.token = ts ∧
        (lex (String.ofList (joined ts))).findings = []) ∧
      (∀ w, Pattern.string.Matches w → ∃ value, unescape w = some value ∧
        ∀ cs, tokens (w ++ cs) = .str (String.ofList value) :: tokens cs) ∧
      ∀ s : String, unescape (spelling (.str s)) = some s.toList := by
  refine ⟨?_, fun w hw => tokens_of_matches_string hw, unescape_spelling_str⟩
  simpa [lex] using pieces_joined hts 0

/-- A name that starts like a keyword, strings that hold quotes, a backslash, a line break, a comment
and operators, the largest integer, and marks that would be longer marks without the blanks. -/
theorem lex_joined_lookalikes :
    let ts : List Token := [.ident "if_", .str "say \x22\x5cn\x22\n// |> ", .int 9223372036854775807,
      .mark .slash, .mark .slash, .mark .pipe, .mark .gt, .str "", .keyword .fn]
    (∀ t ∈ ts, t.isSpellable = true) ∧
      (lex (String.ofList (joined ts))).value.map Lexeme.token = ts ∧
        (lex (String.ofList (joined ts))).findings = [] := by
  intro ts
  have hts : ∀ t ∈ ts, t.isSpellable = true := by
    intro t ht
    exact List.all_eq_true.1 (show ts.all isSpellable = true from by decide) t ht
  exact ⟨hts, (lex_joined hts).1⟩

end Token

end Rivulet
