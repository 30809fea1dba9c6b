import Rivulet.Check.Program
import Rivulet.Proofs.Source.RoundTrip
import Rivulet.Proofs.Token.Joining

set_option autoImplicit false

/-! # Printed types can be written

`Ty.render` writes a type the way a program does. For the types that a program can write at all
(`Ty.isWritable`), which are those without `unit`, tuples and poison, this is meant literally: as the
type of a parameter the text is read, without a report, and the parameter has that type. So no two of
these types have the same text.

The text of a type has blanks in some places only, behind commas and around arrows. Whether a piece of
it is a token therefore depends on what comes next (`Token.EndsWord`). What the lexer makes of it is
followed from the back to the front (`Token.LexesTo`): in front of a text that is read as known tokens
stands one more token or blank. From there on the tokens are those of the printer of programs, which
the parser is known to invert. -/

namespace Rivulet

/-- Whether the mark is a comma or a bracket, which no longer mark starts with. -/
def Mark.isSeparator : Mark → Bool
  | .comma | .lparen | .rparen | .lbrace | .rbrace | .lbracket | .rbracket => true
  | _ => false

/-- A separator is cut off, whatever comes behind it. -/
theorem Cut.front_separator {m : Mark} (hm : m.isSeparator = true) (cs : List Char) :
    ∃ c, m.spelling.toList = [c] ∧ Token.isNamePart c = false ∧
      Cut.front c cs = ⟨.token (.mark m), [c], cs⟩ := by
  cases m with
  | comma | lparen | rparen | lbrace | rbrace | lbracket | rbracket =>
      exact ⟨_, rfl, by decide, by cases cs <;> rfl⟩
  | _ => cases hm

/-! ## Texts that are read as tokens -/

namespace Token

/-- The text is read as these tokens and nothing is reported, wherever it starts. -/
def LexesTo (cs : List Char) (ts : List Token) : Prop :=
  ∀ offset, ((pieces offset cs).filterMap lexeme?).map Lexeme.token = ts ∧
    (pieces offset cs).filterMap diagnostic? = []

/-- No name goes on with this text. -/
def EndsWord (cs : List Char) : Prop := ∀ c ∈ cs.head?, isNamePart c = false

/-- The text does not start with a blank. -/
def StartsToken (cs : List Char) : Prop := ∃ c ∈ cs.head?, isBlank c = false

theorem StartsToken.append {cs : List Char} (h : StartsToken cs) (rest : List Char) :
    StartsToken (cs ++ rest) := by
  obtain ⟨c, hc, hblank⟩ := h
  obtain ⟨cs, rfl⟩ := List.head?_eq_some_iff.1 hc
  exact ⟨c, rfl, hblank⟩

theorem endsWord_separator {m : Mark} (hm : m.isSeparator = true) (rest : List Char) :
    EndsWord (m.spelling.toList ++ rest) := by
  obtain ⟨c, hc, hpart, -⟩ := Cut.front_separator hm rest
  rw [hc]
  rintro d ⟨⟩
  exact hpart

namespace LexesTo

variable {c : Char} {cs text rest : List Char} {t : Token} {ts : List Token}

theorem nil : LexesTo [] [] := fun offset => by simp [pieces]

theorem token (h : LexesTo rest ts) (hfront : Cut.front c cs = ⟨.token t, text, rest⟩) :
    LexesTo (c :: cs) (t :: ts) := by
  intro offset
  rw [pieces, hfront]
  simpa [lexeme?, diagnostic?] using h (offset + byteLength text)

theorem blank (h : LexesTo cs ts) (hcs : StartsToken cs) : LexesTo (' ' :: cs) ts := by
  intro offset
  obtain ⟨c, hc, hblank⟩ := hcs
  obtain ⟨cs, rfl⟩ := List.head?_eq_some_iff.1 hc
  -- a piece of blanks goes as far as it can, here no further than one
  have hfront : Cut.front ' ' (c :: cs) = ⟨.blank, [' '], c :: cs⟩ := by
    rw [Cut.front_of_isBlank (by decide), Cut.run]
    simp [hblank]
  rw [pieces, hfront]
  exact h (offset + byteLength [' '])

/-- A word ends where no name goes on. -/
theorem run (h : LexesTo rest ts) (hrest : EndsWord rest) {w : List Char}
    (hc : isNameStart c = true) (hw : ∀ d ∈ w, isNamePart d = true)
    (hname : Cut.name (c :: w) = .token t) : LexesTo (c :: (w ++ rest)) (t :: ts) := by
  have hfront : Cut.front c (w ++ rest) = ⟨.token t, c :: w, rest⟩ := by
    rw [Cut.front_of_isNameStart hc, ← hname]
    cases rest with
    | nil => rw [List.append_nil, Cut.run_all hw]
    | cons d rest => rw [Cut.run_append hw (hrest d rfl)]
  exact h.token hfront

theorem ident (h : LexesTo rest ts) (hrest : EndsWord rest) {x : String} (hx : isName x = true) :
    LexesTo (x.toList ++ rest) (.ident x :: ts) := by
  obtain ⟨c, w, hcw, hc, hw, hkeyword⟩ := exists_of_isName hx
  rw [hcw]
  exact h.run hrest hc hw (by rw [← hcw, Cut.name_ident hkeyword])

theorem keyword (h : LexesTo rest ts) (hrest : EndsWord rest) (k : Keyword) :
    LexesTo (k.spelling.toList ++ rest) (.keyword k :: ts) := by
  obtain ⟨c, w, hcw, hc, hw⟩ := k.matches_name
  have hname : Cut.name k.spelling.toList = .token (.keyword k) := by cases k <;> rfl
  rw [hcw] at hname ⊢
  exact h.run hrest hc hw hname

/-- A mark that no longer mark starts with. -/
theorem mark (h : LexesTo rest ts) {m : Mark} (hm : m.isSeparator = true) :
    LexesTo (m.spelling.toList ++ rest) (.mark m :: ts) := by
  obtain ⟨c, hc, -, hfront⟩ := Cut.front_separator hm rest
  rw [hc]
  exact h.token hfront

theorem arrow (h : LexesTo rest ts) : LexesTo ('-' :: '>' :: rest) (.mark .arrow :: ts) :=
  h.token (Cut.front_pair rfl rest)

/-- A colon in front of a blank. -/
theorem colon (h : LexesTo (' ' :: rest) ts) : LexesTo (':' :: ' ' :: rest) (.mark .colon :: ts) :=
  h.token rfl

end LexesTo

/-- The text is read as these tokens, in front of everything that does not go on with its last
word. It does not start with a blank, so that a blank can stand in front of it. -/
structure Writes (text : String) (ts : List Token) : Prop where
  starts : StartsToken text.toList
  lexes : ∀ {rest : List Char} {us : List Token}, EndsWord rest → LexesTo rest us →
    LexesTo (text.toList ++ rest) (ts ++ us)

theorem writes_ident {x : String} (hx : isName x = true) : Writes x [.ident x] := by
  refine ⟨?_, fun hrest h => h.ident hrest hx⟩
  obtain ⟨c, w, hcw, hc, -, -⟩ := exists_of_isName hx
  exact ⟨c, by rw [hcw]; rfl, isBlank_of_isNameStart hc⟩

namespace Writes

variable {text : String} {ts : List Token} {texts : List String} {tss : List (List Token)}
  {rest : List Char} {us : List Token}

theorem behind_blank (h : Writes text ts) (hrest : EndsWord rest) (hus : LexesTo rest us) :
    LexesTo (' ' :: (text.toList ++ rest)) (ts ++ us) :=
  (h.lexes hrest hus).blank (h.starts.append rest)

/-- Texts with commas and blanks between them. -/
theorem commas_cons (h : Writes text ts) (hs : List.Forall₂ Writes texts tss) :
    Writes (", ".intercalate (text :: texts)) (Source.Printer.commas (ts :: tss)) := by
  unfold Source.Printer.commas
  induction hs generalizing text ts with
  | nil => simpa using h
  | @cons text' ts' texts tss h' _ ih =>
      have hothers := ih h'
      rw [String.intercalate_cons_cons, List.intercalate_cons_cons]
      refine ⟨?_, fun {rest us} hrest hus => ?_⟩
      · simpa using h.starts.append _
      · have hcomma := (hothers.behind_blank hrest hus).mark (m := .comma) rfl
        simpa [Mark.spelling] using h.lexes (endsWord_separator rfl _) hcomma

theorem lexes_commas (hs : List.Forall₂ Writes texts tss) (hrest : EndsWord rest)
    (hus : LexesTo rest us) :
    LexesTo ((", ".intercalate texts).toList ++ rest) (Source.Printer.commas tss ++ us) := by
  cases hs with
  | nil => simpa [Source.Printer.commas] using hus
  | cons h hs => exact (h.commas_cons hs).lexes hrest hus

/-- Texts with commas between them, in parentheses. -/
theorem lexes_parens (hs : List.Forall₂ Writes texts tss) (hus : LexesTo rest us) :
    LexesTo ('(' :: ((", ".intercalate texts).toList ++ ')' :: rest))
      (Source.Printer.parens (Source.Printer.commas tss) ++ us) := by
  have hinner := lexes_commas hs (endsWord_separator (m := .rparen) rfl rest) (hus.mark rfl)
  simpa [Source.Printer.parens, Mark.spelling] using hinner.mark (m := .lparen) rfl

end Writes

end Token

open Token (LexesTo EndsWord StartsToken Writes)

/-! ## Types that can be written -/

namespace Ty

mutual

/-- Whether a program can write the type: it is made of integers, booleans, strings, sequences and
functions. -/
def isWritable : Ty → Bool
  | .int | .bool | .str => true
  | .seq t => t.isWritable
  | .func ps rs => areWritable ps && areWritable rs
  | .unit | .tuple _ | .poison => false
termination_by structural t => t

/-- Whether a program can write each of several types. -/
def areWritable : List Ty → Bool
  | [] => true
  | t :: ts => t.isWritable && areWritable ts
termination_by structural ts => ts

end

mutual

/-- A type that can be written is the meaning of a written type. -/
theorem exists_typeOf : ∀ t : Ty, t.isWritable = true → ∃ u, Check.typeOf u = t
  | .int, _ => ⟨.named .int, rfl⟩
  | .bool, _ => ⟨.named .bool, rfl⟩
  | .str, _ => ⟨.named .string, rfl⟩
  | .seq t, h => by
      obtain ⟨u, hu⟩ := exists_typeOf t h
      exact ⟨.seq u, by rw [Check.typeOf, hu]⟩
  | .func ps rs, h => by
      simp only [isWritable, Bool.and_eq_true] at h
      obtain ⟨us, hus⟩ := exists_typesOf ps h.1
      obtain ⟨vs, hvs⟩ := exists_typesOf rs h.2
      exact ⟨.func us vs, by rw [Check.typeOf, hus, hvs]⟩
  | .unit, h | .tuple _, h | .poison, h => nomatch h

theorem exists_typesOf : ∀ ts : List Ty, areWritable ts = true → ∃ us, Check.typesOf us = ts
  | [], _ => ⟨[], rfl⟩
  | t :: ts, h => by
      simp only [areWritable, Bool.and_eq_true] at h
      obtain ⟨u, hu⟩ := exists_typeOf t h.1
      obtain ⟨us, hus⟩ := exists_typesOf ts h.2
      exact ⟨u :: us, by rw [Check.typesOf, hu, hus]⟩

end

end Ty

/-! ## The tokens of a printed type -/

theorem Ty.renderList_eq (ts : List Ty) : Ty.renderList ts = ", ".intercalate (ts.map Ty.render) := by
  induction ts with
  | nil => rfl
  | cons t ts ih =>
      cases ts with
      | nil => rw [Ty.renderList, List.map_singleton, String.intercalate_singleton]
      | cons t' ts =>
          rw [Ty.renderList, ih, List.map_cons, List.map_cons, List.map_cons,
            String.intercalate_cons_cons]
          exact fun h => nomatch h

namespace Source

open Check (typeOf typesOf)
open Printer

theorem TypeExpr.startsToken_render (u : TypeExpr) : StartsToken (typeOf u).render.toList := by
  cases u with
  | named n => cases n <;> exact ⟨_, rfl, by decide⟩
  | seq t => exact ⟨'[', by simp [typeOf, Ty.render], by decide⟩
  | func ps rs =>
      refine ⟨'f', ?_, by decide⟩
      rcases rs with _ | ⟨r, _ | ⟨s, rs⟩⟩ <;> simp [typeOf, typesOf, Ty.render]

mutual

/-- The text of a type is read as the type is written. -/
theorem TypeExpr.writes_render : ∀ u : TypeExpr, Writes (typeOf u).render u.tokens
  | .named n => by
      refine ⟨TypeExpr.startsToken_render _, fun hrest h => ?_⟩
      -- the names of types are no keywords
      have hident := h.ident hrest (x := n.spelling) (by cases n <;> decide)
      cases n <;> exact hident
  | .seq t => by
      refine ⟨TypeExpr.startsToken_render _, fun {rest us} hrest h => ?_⟩
      have helement := (TypeExpr.writes_render t).lexes
        (Token.endsWord_separator (m := .rbracket) rfl rest) (h.mark rfl)
      have hseq := helement.mark (m := .lbracket) rfl
      simpa [typeOf, Ty.render, TypeExpr.tokens, brackets, Mark.spelling] using hseq
  | .func ps rs => by
      refine ⟨TypeExpr.startsToken_render _, fun {rest us} hrest h => ?_⟩
      have hps := TypeExpr.writes_renderEach ps
      have hrs := TypeExpr.writes_renderEach rs
      -- the results are written in one of three ways, behind the parameters
      have hhead : ∀ {cs vs}, LexesTo cs vs →
          LexesTo ("fn(".toList ++ ((Ty.renderList (typesOf ps)).toList ++ ')' :: cs))
            (.keyword .fn :: (parens (commas (ps.map TypeExpr.tokens)) ++ vs)) := by
        intro cs vs hcs
        rw [Ty.renderList_eq]
        have hopen := Writes.lexes_parens hps hcs
        exact hopen.keyword (Token.endsWord_separator (m := .lparen) rfl _) .fn
      rcases rs with _ | ⟨r, _ | ⟨s, rs⟩⟩
      · simpa [typeOf, typesOf, Ty.render, TypeExpr.tokens, arrow] using hhead h
      · obtain _ | ⟨hr, -⟩ := hrs
        have harrow := (hr.behind_blank hrest h).arrow.blank ⟨'-', rfl, by decide⟩
        simpa [typeOf, typesOf, Ty.render, TypeExpr.tokens, arrow] using hhead harrow
      · have hresults := (Writes.lexes_parens hrs h).blank ⟨'(', rfl, by decide⟩
        have harrow := hresults.arrow.blank ⟨'-', rfl, by decide⟩
        rw [← Ty.renderList_eq] at harrow
        simpa [typeOf, typesOf, Ty.render, TypeExpr.tokens, arrow] using hhead harrow

theorem TypeExpr.writes_renderEach : ∀ us : List TypeExpr,
    List.Forall₂ Writes ((typesOf us).map Ty.render) (us.map TypeExpr.tokens)
  | [] => .nil
  | u :: us => .cons (TypeExpr.writes_render u) (TypeExpr.writes_renderEach us)

end

/-! ## Programs with printed types -/

/-- A parameter as the checker knows it: its name and the type that is written for it. -/
def Param.meaning (p : Param) : String × Ty := (p.name, typeOf p.ty)

/-- The text of a parameter: its name and its type as it is printed. -/
def paramText (p : String × Ty) : String := p.1 ++ ": " ++ p.2.render

/-- The text of a program with one function, which has these parameters, no results and no body. -/
def stubText (f : String) (params : List (String × Ty)) : String :=
  "function " ++ f ++ "(" ++ ", ".intercalate (params.map paramText) ++ ") \x7b \x7d"

/-- The tree of that program, in terms of the parameters as they are written. -/
def stub (f : String) (ps : List Param) : Program := ⟨[⟨f, ps, [], [], nowhere⟩]⟩

theorem Param.writes_text {p : Param} (hp : Token.isName p.name = true) :
    Writes (paramText p.meaning) p.tokens := by
  have hname := Token.writes_ident hp
  refine ⟨?_, fun {rest us} hrest h => ?_⟩
  · simpa [paramText, Param.meaning] using hname.starts.append _
  · have hcolon := (p.ty.writes_render.behind_blank hrest h).colon
    simpa [paramText, Param.meaning, Param.tokens] using
      hname.lexes (by rintro c ⟨⟩; decide) hcolon

theorem lexes_stubText {f : String} (hf : Token.isName f = true) {ps : List Param}
    (hps : ∀ p ∈ ps, Token.isName p.name = true) :
    LexesTo (stubText f (ps.map Param.meaning)).toList (stub f ps).tokens := by
  have hparams : List.Forall₂ Writes ((ps.map Param.meaning).map paramText)
      (ps.map Param.tokens) := by
    rw [List.map_map, List.forall₂_map_left_iff, List.forall₂_map_right_iff, List.forall₂_same]
    exact fun p hp => Param.writes_text (hps p hp)
  -- from the last character to the first
  have hclose := (LexesTo.nil.mark (m := .rbrace) rfl).blank ⟨_, rfl, by decide⟩
  have hbody := (hclose.mark (m := .lbrace) rfl).blank ⟨_, rfl, by decide⟩
  have hlist := Writes.lexes_parens hparams hbody
  have hname := (Token.writes_ident hf).behind_blank
    (Token.endsWord_separator (m := .lparen) rfl _) hlist
  have hwhole := hname.keyword (by rintro c ⟨⟩; decide) .function
  simpa [stubText, stub, Program.tokens, Function.tokens, arrow, braces, Stmt.tokensBlock,
    Mark.spelling, Keyword.spelling] using hwhole

/-- A text that is read as the tokens of a program is parsed to that program. -/
theorem Program.ofSource_of_lexesTo {p : Program} (hp : p.isWritable = true) {source : String}
    (h : LexesTo source.toList p.tokens) :
    (Program.ofSource source).findings = [] ∧ (Program.ofSource source).value.bare = p.bare := by
  obtain ⟨htokens, hlex⟩ := h 0
  obtain ⟨hparse, hbare⟩ := Program.ofTokens_tokens hp htokens source.utf8ByteSize
  exact ⟨Program.findings_ofSource_eq_nil_iff.2 ⟨hlex, hparse⟩, hbare⟩

theorem Param.meaning_comp_bare : Param.meaning ∘ Param.bare = Param.meaning := rfl

/-- A program that is a stub up to spans and captures has a single function, with the name and the
parameters of the stub. -/
theorem Program.eq_of_bare_stub {q : Program} {f : String} {ps : List Param}
    (h : q.bare = (stub f ps).bare) :
    ∃ g : Function, q = ⟨[g]⟩ ∧ g.name = f ∧ g.params.map Param.meaning = ps.map Param.meaning ∧
      g.results = [] ∧ g.body = [] := by
  obtain ⟨fs⟩ := q
  simp only [Program.bare, stub, List.map_cons, List.map_nil, Program.mk.injEq,
    List.map_eq_singleton_iff] at h
  obtain ⟨g, rfl, hg⟩ := h
  simp only [Function.bare, Stmt.bareBlock_eq, List.map_nil, Function.mk.injEq,
    List.map_eq_nil_iff, and_true] at hg
  obtain ⟨hname, hparams, hresults, hbody⟩ := hg
  refine ⟨g, rfl, hname, ?_, hresults, hbody⟩
  -- the types of parameters are no spans, so they are left by `bare`
  have hmeaning := congrArg (List.map Param.meaning) hparams
  simpa only [List.map_map, Param.meaning_comp_bare] using hmeaning

end Source

/-- A stub is accepted as it is written. -/
theorem Typed.Program.check_stub {g : Source.Function} (hmain : g.name ≠ "main")
    (hresults : g.results = []) (hbody : g.body = []) :
    (Typed.Program.check ⟨[g]⟩).findings = [] ∧
      (Typed.Program.check ⟨[g]⟩).value.functions.map
          (fun f => (f.name, f.params.map fun p => (p.name, p.ty))) =
        [(g.name, g.params.map Source.Param.meaning)] := by
  have hlookup : (Check.signatures ⟨[g]⟩).lookup g.name = some (Check.signature g) := by
    simp [Check.signatures]
  simp [Typed.Program.check, Check.checkFunction, hlookup, hmain, hresults, hbody,
    Check.signature, Check.checkBlock, List.zipWith_map_right, Source.Param.meaning]

theorem Ty.exists_params : ∀ {params : List (String × Ty)},
    (∀ p ∈ params, Token.isName p.1 = true ∧ p.2.isWritable = true) →
    ∃ ps : List Source.Param, ps.map Source.Param.meaning = params ∧
      ∀ p ∈ ps, Token.isName p.name = true
  | [], _ => ⟨[], rfl, fun _ h => nomatch h⟩
  | (x, t) :: params, h => by
      obtain ⟨⟨hx, ht⟩, hparams⟩ := List.forall_mem_cons.1 h
      obtain ⟨u, hu⟩ := exists_typeOf t ht
      obtain ⟨ps, hps, hnames⟩ := exists_params hparams
      refine ⟨⟨x, u, Source.nowhere⟩ :: ps, ?_, List.forall_mem_cons.2 ⟨hx, hnames⟩⟩
      rw [List.map_cons, hps, Source.Param.meaning, hu]

/-- The text of a stub is read and checked without a report, and the parameters have the types that
were printed. -/
theorem Source.check_stubText {f : String} (hf : Token.isName f = true) (hmain : f ≠ "main")
    (params : List (String × Ty))
    (hparams : ∀ p ∈ params, Token.isName p.1 = true ∧ p.2.isWritable = true) :
    let parsed := Program.ofSource (stubText f params)
    let checked := Typed.Program.check parsed.value
    parsed.findings = [] ∧ checked.findings = [] ∧
      checked.value.functions.map (fun g => (g.name, g.params.map fun p => (p.name, p.ty))) =
        [(f, params)] := by
  intro parsed checked
  obtain ⟨ps, rfl, hps⟩ := Ty.exists_params hparams
  have hwritable : (stub f ps).isWritable = true := by
    simpa [stub, Program.isWritable, Function.isWritable, Stmt.areWritable, hf] using hps
  obtain ⟨hsilent, hbare⟩ := Program.ofSource_of_lexesTo hwritable (lexes_stubText hf hps)
  obtain ⟨g, hg, rfl, hmeaning, hresults, hbody⟩ := Program.eq_of_bare_stub hbare
  have hchecked : checked = Typed.Program.check ⟨[g]⟩ := congrArg Typed.Program.check hg
  rw [hchecked, ← hmeaning]
  exact ⟨hsilent, Typed.Program.check_stub hmain hresults hbody⟩

/-- **Printed types read back.** Take any types that a program can write and write each, as it is
printed, as the type of a parameter of a function; not of `main`, which has no parameters. The program
is parsed and checked without a report, and each parameter has the type that was printed for it. So
types that are printed alike are the same. -/
theorem Ty.render_reads_back :
    (∀ (f : String) (params : List (String × Ty)), Token.isName f = true → f ≠ "main" →
      (∀ p ∈ params, Token.isName p.1 = true ∧ p.2.isWritable = true) →
        let parsed := Source.Program.ofSource (Source.stubText f params)
        let checked := Typed.Program.check parsed.value
        parsed.findings = [] ∧ checked.findings = [] ∧
          checked.value.functions.map (fun g => (g.name, g.params.map fun p => (p.name, p.ty))) =
            [(f, params)]) ∧
      ∀ t u : Ty, t.isWritable = true → u.isWritable = true → t.render = u.render → t = u := by
  refine ⟨fun f params hf hmain hparams => Source.check_stubText hf hmain params hparams, ?_⟩
  intro t u ht hu htu
  -- one text is read back as both types
  have hread : ∀ v : Ty, v.isWritable = true → _ := fun v hv =>
    (Source.check_stubText (f := "f") (by decide) (by decide) [("x", v)]
      (List.forall_mem_singleton.2 ⟨(by decide : Token.isName "x" = true), hv⟩)).2.2
  have htext : Source.stubText "f" [("x", t)] = Source.stubText "f" [("x", u)] := by
    simp only [Source.stubText, List.map_cons, List.map_nil, Source.paramText, htu]
  have hboth := (hread t ht).symm.trans (htext ▸ hread u hu)
  simpa using hboth

/-- Functions among the parameters and the results, no parameters, and several results. -/
theorem Ty.render_reads_back_nested :
    let t := Ty.func [.func [] [.int, .seq .bool], .str] [.func [.int] []]
    let source := "function f(g: fn(fn() -> (int, [bool]), string) -> fn(int), h: [fn()]) \x7b \x7d"
    let parsed := Source.Program.ofSource source
    let checked := Typed.Program.check parsed.value
    parsed.findings = [] ∧ checked.findings = [] ∧
      checked.value.functions.map (fun g => (g.name, g.params.map fun p => (p.name, p.ty))) =
        [("f", [("g", t), ("h", .seq (.func [] []))])] := by
  intro t source
  have hsource : source = Source.stubText "f" [("g", t), ("h", .seq (.func [] []))] := by decide
  rw [hsource]
  exact Ty.render_reads_back.1 "f" _ (by decide) (by decide) (by decide)

end Rivulet
