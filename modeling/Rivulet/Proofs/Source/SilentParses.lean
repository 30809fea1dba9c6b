import Rivulet.Proofs.Source.Phrases
import Rivulet.Source.Parser

set_option autoImplicit false

/-! # Silent parses

If the parser has nothing to report, then the tokens are a program and the tree is the tree of that
program. A clean reply is a derivation by the grammar of the parser, whatever the grammar; what
remains is that each definition of that grammar derives phrases only. The rules refer to each other,
so that is shown given that the rules derive phrases, and the depth of rules is then an induction.
-/

namespace Rivulet.Source

open Grammar Gram Wording Phrase

/-! ## The grammar derives phrases -/

/-- The phrases that a rule stands for. -/
def Rule.phrases : {α : Type} → Rule α → Wording α
  | _, .type => IsType
  | _, .expr => IsExpr
  | _, .stmt => IsStmt

/-- What a grammar derives if its rules derive phrases. -/
abbrev G.lang {α : Type} (g : G α) : Wording α := g.Derives Rule.phrases

namespace Phrase

variable {α : Type} {ls : List Lexeme}

/-! ### Tokens, brackets and commas -/

theorem of_token {t t' : Token} (h : G.lang (.token t) ls t') : ∃ s, ls = [⟨t, s⟩] := by
  obtain ⟨⟨t, s⟩, rfl, rfl, -⟩ := h
  exact ⟨s, rfl⟩

theorem of_ident {x : String} (h : G.ident.lang ls x) : ∃ s, ls = [ident x s] := by
  obtain ⟨⟨t, s⟩, rfl, ht⟩ := h
  cases t with
  | ident y =>
      cases ht
      exact ⟨s, rfl⟩
  | _ => cases ht

theorem of_right_token {t : Token} {g : G α} {a : α} (h : G.lang (right (.token t) g) ls a) :
    ∃ s ms, ls = ⟨t, s⟩ :: ms ∧ g.lang ms a := by
  obtain ⟨_, ms, _, rfl, ht, ha⟩ := Derives.of_right h
  obtain ⟨s, rfl⟩ := of_token ht
  exact ⟨s, ms, rfl, ha⟩

theorem of_left_token {t : Token} {g : G α} {a : α} (h : G.lang (left g (.token t)) ls a) :
    ∃ ms s, ls = ms ++ [⟨t, s⟩] ∧ g.lang ms a := by
  obtain ⟨ms, _, _, rfl, ha, ht⟩ := Derives.of_left h
  obtain ⟨s, rfl⟩ := of_token ht
  exact ⟨ms, s, rfl, ha⟩

theorem of_between_tokens {t u : Token} {g : G α} {a : α}
    (h : G.lang (between (.token t) g (.token u)) ls a) :
    ∃ o ms c, ls = ⟨t, o⟩ :: (ms ++ [⟨u, c⟩]) ∧ g.lang ms a := by
  obtain ⟨_, ms, _, _, _, rfl, ho, ha, hc⟩ := Derives.of_between h
  obtain ⟨o, rfl⟩ := of_token ho
  obtain ⟨c, rfl⟩ := of_token hc
  exact ⟨o, ms, c, rfl, ha⟩

/-- Items with commas are phrases with commas if each item is a phrase. -/
theorem of_sepBy_comma {g : G α} {L : Wording α} (hg : ∀ ls a, g.lang ls a → L ls a)
    {trailing : Bool} {as : List α} (h : G.lang (.sepBy g (G.mark .comma) trailing) ls as) :
    Separated L IsComma trailing ls as :=
  Separated.mono hg (fun _ ⟨_, hc⟩ => of_token hc) h

/-! ### Types and parameters -/

theorem of_types {ts : List TypeExpr} (h : (G.commas (.rule .type)).lang ls ts) :
    Separated IsType IsComma true ls ts :=
  of_sepBy_comma (fun _ _ h => h) h

theorem of_arrowResults {ts : List TypeExpr} (h : G.arrowResults.lang ls ts) :
    IsResults IsType ls ts := by
  obtain ⟨_, ⟨rfl, rfl⟩ | ⟨ts, harrow, rfl⟩, rfl⟩ := h
  · exact .none
  · obtain ⟨s, ms, rfl, ⟨t, ht, rfl⟩ | hparens⟩ := of_right_token harrow
    · exact .one ht
    · obtain ⟨o, ns, c, rfl, hts⟩ := of_between_tokens hparens
      exact .several (of_types hts)

theorem of_type {t : TypeExpr} (h : G.type.lang ls t) : IsType ls t := by
  rcases h with (⟨⟨t, s⟩, rfl, ht⟩ | ⟨e, hbrackets, rfl⟩) | ⟨_, ⟨ms, ns, rfl, hfn, hrs⟩, rfl⟩
  · -- a name
    cases t with
    | ident x =>
        obtain ⟨n, hn, rfl⟩ := Option.map_eq_some_iff.1 ht
        exact .named hn
    | _ => cases ht
  · -- a sequence type
    obtain ⟨o, ms, c, rfl, he⟩ := of_between_tokens hbrackets
    exact .seq he
  · -- a function type
    obtain ⟨s, ks, rfl, hparens⟩ := of_right_token hfn
    obtain ⟨o, ms, c, rfl, hps⟩ := of_between_tokens hparens
    rw [List.cons_append, List.cons_append, List.append_assoc, List.singleton_append]
    exact .func (of_types hps) (of_arrowResults hrs)

theorem of_param {p : Param} (h : G.param.lang ls p) : IsParam ls p := by
  obtain ⟨⟨x, t⟩, s, ⟨_, ns, rfl, hname, ht⟩, hs, rfl⟩ := h
  obtain ⟨_, c, rfl, hx⟩ := of_left_token hname
  obtain ⟨i, rfl⟩ := of_ident hx
  rw [hs (by simp)]
  exact .typed ht rfl

theorem of_openParam {p : OpenParam} (h : G.openParam.lang ls p) : IsOpenParam ls p := by
  obtain ⟨⟨x, t⟩, s, ⟨_, ns, rfl, hx, htype⟩, hs, rfl⟩ := h
  obtain ⟨i, rfl⟩ := of_ident hx
  rw [hs (by simp)]
  rcases htype with ⟨rfl, hnone⟩ | ⟨t, hcolon, hsome⟩
  · obtain rfl : t = none := hnone
    exact .untyped
  · obtain rfl : _ = some t := hsome
    obtain ⟨c, ns, rfl, ht⟩ := of_right_token hcolon
    exact .typed ht rfl

theorem of_params {ps : List Param} (h : (G.parens (G.commas G.param)).lang ls ps) :
    ∃ o ms c, ls = mark .lparen o :: (ms ++ [mark .rparen c]) ∧
      Separated IsParam IsComma true ms ps := by
  obtain ⟨o, ms, c, rfl, hps⟩ := of_between_tokens h
  exact ⟨o, ms, c, rfl, of_sepBy_comma (fun _ _ => of_param) hps⟩

/-! ### Atoms -/

theorem of_block {b : List Stmt} (h : G.block.lang ls b) : IsBlock ls b := by
  obtain ⟨o, ms, c, rfl, hb⟩ := of_between_tokens h
  exact .braces hb

theorem of_exprs {trailing : Bool} {es : List Expr}
    (h : G.lang (.sepBy (.rule .expr) (G.mark .comma) trailing) ls es) :
    Separated IsExpr IsComma trailing ls es :=
  of_sepBy_comma (fun _ _ h => h) h

theorem of_blockClosure {e : Expr} (h : G.blockClosure.lang ls e) : IsAtom ls e := by
  obtain ⟨⟨⟨ps, rs⟩, b⟩, s, ⟨_, ns, rfl, ⟨_, ms, rfl, hparams, hrs⟩, hb⟩, hs, rfl⟩ := h
  obtain ⟨o, ls, c, rfl, hps⟩ := of_params hparams
  rw [hs (by simp)]
  exact .block (o := o) (c := c) hps (of_arrowResults hrs) (of_block hb) (by simp)

theorem of_lambda {e : Expr} (h : G.lambda.lang ls e) : IsAtom ls e := by
  obtain ⟨⟨ps, e⟩, s, ⟨_, ms, rfl, hhead, he⟩, hs, rfl⟩ := h
  obtain ⟨ks, a, rfl, hps⟩ := of_left_token hhead
  rw [hs (by simp)]
  have hparams : IsClosureHead ks ps := by
    rcases hps with hparens | ⟨p, hp, rfl⟩
    · obtain ⟨o, ns, c, rfl, hps⟩ := of_between_tokens hparens
      exact .several (of_sepBy_comma (fun _ _ => of_openParam) hps)
    · exact .one (of_openParam hp)
  exact .lambda (s := a) hparams he (by simp)

theorem of_literal {e : Expr} (h : G.literal.lang ls e) : IsAtom ls e := by
  obtain ⟨v, s, ⟨⟨t, i⟩, rfl, ht⟩, hs, rfl⟩ := h
  rw [hs (by simp)]
  cases t with
  | int n =>
      cases ht
      exact .int
  | str x =>
      cases ht
      exact .str
  | keyword k =>
      cases k with
      | true =>
          cases ht
          exact .true
      | false =>
          cases ht
          exact .false
      | _ => cases ht
  | _ => cases ht

theorem of_name {e : Expr} (h : G.name.lang ls e) : IsAtom ls e := by
  obtain ⟨x, s, hx, hs, rfl⟩ := h
  obtain ⟨i, rfl⟩ := of_ident hx
  rw [hs (by simp)]
  exact .name

theorem of_emptySeq {e : Expr} (h : G.emptySeq.lang ls e) : IsAtom ls e := by
  obtain ⟨t, s, hseq, hs, rfl⟩ := h
  obtain ⟨_, ms, _, rfl, ⟨_, _, rfl, ho, hc⟩, ht⟩ := Derives.of_right hseq
  obtain ⟨o, rfl⟩ := of_token ho
  obtain ⟨c, rfl⟩ := of_token hc
  rw [hs (by simp)]
  exact .emptySeq ht rfl

theorem of_seq {e : Expr} (h : G.seq.lang ls e) : IsAtom ls e := by
  obtain ⟨es, s, hseq, hs, rfl⟩ := h
  obtain ⟨o, ms, c, rfl, hes⟩ := of_between_tokens hseq
  rw [hs (by simp)]
  exact .seq (of_exprs hes) rfl

theorem of_parenthesized {e : Expr} (h : G.parenthesized.lang ls e) : IsAtom ls e := by
  obtain ⟨e, s, hparens, hs, rfl⟩ := h
  obtain ⟨o, ms, c, rfl, he⟩ := of_between_tokens hparens
  rw [hs (by simp)]
  exact .parens he rfl

theorem of_atom {e : Expr} (h : G.atom.lang ls e) : IsAtom ls e := by
  rcases h with (((((h | h) | h) | h) | h) | h) | h
  · exact of_blockClosure h
  · exact of_lambda h
  · exact of_literal h
  · exact of_name h
  · exact of_emptySeq h
  · exact of_seq h
  · exact of_parenthesized h

/-! ### Expressions -/

/-- A call or a subscript behind an applied atom. -/
theorem of_suffix {e : Expr} {ms : List Lexeme} {x : G.Suffix} (he : IsApplied ls e)
    (h : G.suffix.lang ms x) : IsApplied (ls ++ ms) (x.apply e) := by
  rcases h with ⟨as, s, hparens, hs, rfl⟩ | ⟨i, s, hbrackets, hs, rfl⟩
  · obtain ⟨o, ks, c, rfl, has⟩ := of_between_tokens hparens
    rw [hs (by simp), extent_bracketed]
    exact .call he (of_exprs has)
  · obtain ⟨o, ks, c, rfl, hi⟩ := of_between_tokens hbrackets
    rw [hs (by simp), extent_bracketed]
    exact .index he hi

/-- Calls and subscripts in a row: by induction on them, the first is applied first. -/
theorem of_suffixes {ms : List Lexeme} {xs : List G.Suffix} (h : Many G.suffix.lang ms xs) :
    ∀ {ls : List Lexeme} {e : Expr}, IsApplied ls e →
      IsApplied (ls ++ ms) (xs.foldl G.Suffix.apply e) := by
  induction h with
  | nil =>
      intro ls e he
      rwa [List.append_nil]
  | cons head _ ih =>
      intro ls e he
      rw [← List.append_assoc]
      exact ih (of_suffix he head)

theorem of_applied {e : Expr} (h : G.applied.lang ls e) : IsApplied ls e := by
  obtain ⟨⟨e, xs⟩, ⟨ks, ms, rfl, he, hxs⟩, rfl⟩ := h
  exact of_suffixes hxs (.atom (of_atom he))

theorem of_unaryOp {op : UnaryOp × Span} (h : G.unaryOp.lang ls op) :
    ∃ m, ls = [mark m op.2] ∧ m.spelling = op.1.symbol := by
  obtain ⟨_, s, ⟨_, hm, rfl⟩ | ⟨_, hm, rfl⟩, hs, rfl⟩ := h
  · obtain ⟨i, rfl⟩ := of_token hm
    obtain rfl : s = i := hs (by simp)
    exact ⟨.minus, rfl, rfl⟩
  · obtain ⟨i, rfl⟩ := of_token hm
    obtain rfl : s = i := hs (by simp)
    exact ⟨.not, rfl, rfl⟩

/-- Unary operators in a row: by induction on them, the last is applied first. -/
theorem of_unaryOps {ops : List (UnaryOp × Span)} (h : Many G.unaryOp.lang ls ops)
    {ms : List Lexeme} {e : Expr} (he : IsApplied ms e) :
    IsOperand (ls ++ ms) (ops.foldr G.applyUnary e) := by
  induction h with
  | nil => exact .applied he
  | cons head _ ih =>
      obtain ⟨m, rfl, hspelled⟩ := of_unaryOp head
      rw [List.append_assoc]
      exact .unary hspelled ih

theorem of_operand {e : Expr} (h : G.operand.lang ls e) : IsOperand ls e := by
  obtain ⟨⟨ops, e⟩, ⟨ks, ms, rfl, hops, he⟩, rfl⟩ := h
  exact of_unaryOps hops (of_applied he)

/-- The token of an operator is spelled like its symbol. -/
theorem binaryOp?_spelled {t : Token} {op : BinaryOp} (h : G.binaryOp? t = some op) :
    ∃ m, t = .mark m ∧ m.spelling = op.symbol := by
  cases t with
  | mark m =>
      refine ⟨m, rfl, ?_⟩
      cases m <;> cases h <;> rfl
  | _ => cases h

theorem of_chain {rest : List (BinaryOp × Expr)}
    (h : Many (G.lang (Gram.seq (.pick G.binaryOp?) G.operand)) ls rest) : IsChain ls rest := by
  induction h with
  | nil => exact .nil
  | cons head _ ih =>
      obtain ⟨_, ms, rfl, ⟨⟨t, s⟩, rfl, hop⟩, he⟩ := head
      obtain ⟨m, rfl, hspelled⟩ := binaryOp?_spelled hop
      rw [List.append_assoc, List.singleton_append]
      exact .cons hspelled (of_operand he) ih

theorem of_expr {e : Expr} (h : G.expr.lang ls e) : IsExpr ls e := by
  obtain ⟨⟨e, rest⟩, ⟨ks, ms, rfl, he, hrest⟩, rfl⟩ := h
  exact .chain (of_operand he) (of_chain hrest)

/-! ### Statements -/

theorem of_declarator {isConst : Bool}
    (h : G.lang (orElse (as (G.word .var) false) (as (G.word .const) true)) ls isConst) :
    ∃ s, ls = [word (declarator isConst) s] := by
  rcases h with ⟨_, hword, rfl⟩ | ⟨_, hword, rfl⟩
  · exact of_token hword
  · exact of_token hword

/-- With a type, a declaration has either equals sign; without one, only `:=`. -/
theorem of_declaredType {t : Option TypeExpr} (h : G.declaredType.lang ls t) :
    (∃ t' c ms m q, t = some t' ∧ IsType ms t' ∧ (m = .eq ∨ m = .colonEq) ∧
        ls = mark .colon c :: (ms ++ [mark m q])) ∨
      ∃ q, t = none ∧ ls = [mark .colonEq q] := by
  rcases h with ⟨t', htyped, rfl⟩ | ⟨_, hm, rfl⟩
  · obtain ⟨_, _, _, rfl, hcolon, hequals⟩ := Derives.of_left htyped
    obtain ⟨c, ms, rfl, ht⟩ := of_right_token hcolon
    left
    rcases hequals with hm | hm
    · obtain ⟨q, rfl⟩ := of_token hm
      exact ⟨t', c, ms, .eq, q, rfl, ht, .inl rfl, rfl⟩
    · obtain ⟨q, rfl⟩ := of_token hm
      exact ⟨t', c, ms, .colonEq, q, rfl, ht, .inr rfl, rfl⟩
  · obtain ⟨q, rfl⟩ := of_token hm
    exact .inr ⟨q, rfl, rfl⟩

theorem of_declaration {k : Span → Stmt} (h : G.declaration.lang ls k) :
    IsSentence ls (k (extent ls)) := by
  obtain ⟨⟨⟨⟨isConst, x⟩, t⟩, e⟩, ⟨_, ns, rfl, ⟨_, _, rfl, hnamed, htype⟩, he⟩, rfl⟩ := h
  obtain ⟨_, _, rfl, hword, hx⟩ := hnamed
  obtain ⟨i, rfl⟩ := of_ident hx
  obtain ⟨s, rfl⟩ := of_declarator hword
  rcases of_declaredType htype with ⟨t', c, ms, m, q, rfl, ht, hm, rfl⟩ | ⟨q, rfl, rfl⟩
  · exact .declareTyped (s := s) (i := i) (c := c) (q := q) ht hm he (by simp)
  · exact .declare he rfl

theorem of_shortDeclaration {k : Span → Stmt} (h : G.shortDeclaration.lang ls k) :
    IsSentence ls (k (extent ls)) := by
  obtain ⟨⟨x, e⟩, ⟨_, ns, rfl, hname, he⟩, rfl⟩ := h
  obtain ⟨_, q, rfl, hx⟩ := of_left_token hname
  obtain ⟨i, rfl⟩ := of_ident hx
  exact .declareShort he rfl

theorem of_assignment {k : Span → Stmt} (h : G.assignment.lang ls k) :
    IsSentence ls (k (extent ls)) := by
  obtain ⟨⟨x, e⟩, ⟨_, ns, rfl, hname, he⟩, rfl⟩ := h
  obtain ⟨_, q, rfl, hx⟩ := of_left_token hname
  obtain ⟨i, rfl⟩ := of_ident hx
  exact .assign he rfl

theorem of_conditional {k : Span → Stmt} (h : G.conditional.lang ls k) :
    IsSentence ls (k (extent ls)) := by
  obtain ⟨⟨⟨e, b⟩, d⟩, ⟨_, ns, rfl, ⟨_, ms, rfl, hif, hb⟩, helse⟩, rfl⟩ := h
  obtain ⟨s, ls, rfl, he⟩ := of_right_token hif
  rcases helse with ⟨rfl, hnone⟩ | ⟨d', helse, hsome⟩
  · obtain rfl : d = none := hnone
    exact .ifThen (s := s) he (of_block hb) (by simp)
  · obtain rfl : d = some d' := hsome
    obtain ⟨z, ns, rfl, hd⟩ := of_right_token helse
    exact .ifElse (s := s) (z := z) he (of_block hb) (of_block hd) (by simp)

theorem of_loop {k : Span → Stmt} (h : G.loop.lang ls k) : IsSentence ls (k (extent ls)) := by
  obtain ⟨⟨e, b⟩, ⟨_, ms, rfl, hwhile, hb⟩, rfl⟩ := h
  obtain ⟨s, ls, rfl, he⟩ := of_right_token hwhile
  exact .while he (of_block hb) rfl

theorem of_return {k : Span → Stmt} (h : G.return_.lang ls k) : IsSentence ls (k (extent ls)) := by
  obtain ⟨es, hreturn, rfl⟩ := h
  obtain ⟨s, ms, rfl, hes⟩ := of_right_token hreturn
  exact .return (of_exprs hes) rfl

theorem of_exprStmt {k : Span → Stmt} (h : G.exprStmt.lang ls k) :
    IsSentence ls (k (extent ls)) := by
  obtain ⟨e, he, rfl⟩ := h
  exact .expr he

theorem of_stmt {k : Stmt} (h : G.stmt.lang ls k) : IsStmt ls k := by
  obtain ⟨ms, _, _, rfl, ⟨f, s, hf, hs, rfl⟩, hsemicolon⟩ := Derives.of_left h
  have hsentence : IsSentence ms (f (extent ms)) := by
    rcases hf with (((((hf | hf) | hf) | hf) | hf) | hf) | hf
    · exact of_declaration hf
    · exact of_shortDeclaration hf
    · exact of_assignment hf
    · exact of_conditional hf
    · exact of_loop hf
    · exact of_return hf
    · exact of_exprStmt hf
  rw [hs hsentence.ne_nil]
  rcases hsemicolon with ⟨rfl, -⟩ | ⟨_, hm, -⟩
  · rw [List.append_nil]
    exact .plain hsentence
  · obtain ⟨i, rfl⟩ := of_token hm
    exact .ended hsentence

/-! ### Programs -/

theorem of_function {f : Function} (h : G.function.lang ls f) : IsFunction ls f := by
  obtain ⟨⟨⟨⟨x, ps⟩, rs⟩, b⟩, s, ⟨_, ns, rfl, ⟨_, ms, rfl, hhead, hrs⟩, hb⟩, hs, rfl⟩ := h
  obtain ⟨_, _, rfl, hname, hparams⟩ := hhead
  obtain ⟨k, _, rfl, hx⟩ := of_right_token hname
  obtain ⟨i, rfl⟩ := of_ident hx
  obtain ⟨o, ls, c, rfl, hps⟩ := of_params hparams
  rw [hs (by simp)]
  exact .define (s := k) (i := i) (o := o) (c := c) hps (of_arrowResults hrs) (of_block hb)
    (by simp)

theorem of_program {p : Program} (h : G.program.lang ls p) : IsProgram ls p := by
  obtain ⟨fs, hall, rfl⟩ := h
  obtain ⟨ms, _, _, rfl, hfs, rfl⟩ := Derives.of_left hall
  rw [List.append_nil]
  exact Many.mono (fun _ _ => of_function) hfs

end Phrase

/-! ## The parser derives phrases -/

/-- The grammar of a rule derives the phrases of the rule. -/
theorem Rule.of_body : ∀ {α : Type} (r : Rule α) {ls : List Lexeme} {a : α}, r.body.lang ls a →
    r.phrases ls a
  | _, .type, _, _, h => of_type h
  | _, .expr, _, _, h => of_expr h
  | _, .stmt, _, _, h => of_stmt h

theorem Rule.isPlain_body {α : Type} (r : Rule α) : r.body.isPlain = true := by
  cases r <;> rfl

/-- What a rule reads without errors is a phrase, by induction on the depth of rules. -/
theorem Rule.parser_spells : ∀ (depth : Nat) {α : Type} (r : Rule α),
    Spells (Rule.parser depth r) r.phrases
  | 0, _, r => by
      rintro c a d ⟨rival, h⟩
      cases h
  | depth + 1, _, r => by
      intro c a d h
      have hrules : ∀ {α : Type} (r : Rule α), Spells (Rule.parser depth r) r.phrases :=
        fun r => Rule.parser_spells depth r
      obtain ⟨ls, hpass, hls⟩ := derives_of_clean hrules r.body r.isPlain_body h
      exact ⟨ls, hpass, r.of_body hls⟩

/-- A program that is read without errors is read from all tokens. -/
theorem isProgram_of_clean {depth : Nat} {tokens : List Lexeme} {size : Nat} {p : Program}
    {d : Cursor}
    (h : Parser.Clean (G.program.run (Rule.parser depth)) (Cursor.start tokens size) p d) :
    IsProgram tokens p := by
  have hrules : ∀ {α : Type} (r : Rule α), Spells (Rule.parser depth r) r.phrases :=
    fun r => Rule.parser_spells depth r
  obtain ⟨ls, hpass, hls⟩ := derives_of_clean hrules G.program rfl h
  -- the end of the text is part of the grammar, so nothing is left behind the program
  have hend : d.rest = [] := by
    obtain ⟨fs, hall, rfl⟩ := Parser.Clean.map h
    obtain ⟨v, hseq, rfl⟩ := Parser.Clean.map hall
    obtain ⟨m, -, hfinish⟩ := Parser.Clean.seq hseq
    obtain ⟨rfl, hrest⟩ := Parser.Clean.finish hfinish
    exact hrest
  have htokens : tokens = ls := by
    calc tokens = (Cursor.start tokens size).rest := rfl
      _ = ls ++ d.rest := hpass.rest_eq
      _ = ls := by rw [hend, List.append_nil]
  rw [htokens]
  exact of_program hls

/-- Every report of the parser has the code of syntax errors. -/
theorem code_diagnostic (f : Failure) : f.diagnostic.code = .parse := by
  unfold Failure.diagnostic
  split <;> rfl

/-- What a parse should be. -/
structure Program.IsParseOf (tokens : List Lexeme) (q : Program) : Prop where
  /-- No part of the tree is a placeholder. -/
  intact : q.Intact
  /-- All the tokens together are a phrase, and the tree is that of the phrase, with the captures of
  closures resolved. -/
  derived : ∃ p, IsProgram tokens p ∧ q = p.resolve

theorem Program.isParseOf_of_silent {tokens : List Lexeme} {size : Nat}
    (h : (Program.ofTokens tokens size).findings = []) :
    Program.IsParseOf tokens (Program.ofTokens tokens size).value := by
  unfold Program.ofTokens at h ⊢
  dsimp only at h ⊢
  generalize hreply : G.program.run (Rule.parser (depthFor tokens)) (Cursor.start tokens size)
    = reply at h ⊢
  obtain ⟨errors, result⟩ := reply
  cases result with
  | ok p d rival =>
      obtain rfl : errors = [] := h
      have hp : IsProgram tokens p := isProgram_of_clean ⟨rival, hreply⟩
      exact ⟨p.intact_resolve.2 hp.intact, p, hp, rfl⟩
  | fail e => simp at h

/-- **A silent parse is a real parse.** If the parser reports nothing, then the tree has no
placeholder, and all the tokens together are a phrase of the language whose tree it is. Otherwise
there is a report of a syntax error. -/
theorem Program.isParseOf_or_report (tokens : List Lexeme) (size : Nat) :
    ((Program.ofTokens tokens size).findings = [] →
        Program.IsParseOf tokens (Program.ofTokens tokens size).value) ∧
      (¬ Program.IsParseOf tokens (Program.ofTokens tokens size).value →
        ∃ d ∈ (Program.ofTokens tokens size).findings.map Failure.diagnostic,
          d.code.label = "E002") := by
  refine ⟨Program.isParseOf_of_silent, fun hnot => ?_⟩
  cases hfindings : (Program.ofTokens tokens size).findings with
  | nil => exact absurd (Program.isParseOf_of_silent hfindings) hnot
  | cons f fs =>
      refine ⟨f.diagnostic, by simp, ?_⟩
      rw [code_diagnostic]
      rfl

/-- `function f() { s |> x -> -x + (1); }` -/
def silentTokens : List Lexeme :=
  let tokens : List Token :=
    [.keyword .function, .ident "f", .mark .lparen, .mark .rparen, .mark .lbrace, .ident "s",
     .mark .pipeMap, .ident "x", .mark .arrow, .mark .minus, .ident "x", .mark .plus, .mark .lparen,
     .int 1, .mark .rparen, .mark .semicolon, .mark .rbrace]
  tokens.zipIdx.map fun (t, i) => ⟨t, ⟨i, i + 1⟩⟩

theorem Program.isParseOf_silentTokens :
    (Program.ofTokens silentTokens 17).findings = [] ∧
      Program.IsParseOf silentTokens (Program.ofTokens silentTokens 17).value := by
  have hsilent : (Program.ofTokens silentTokens 17).findings = [] := by decide +kernel
  exact ⟨hsilent, (Program.isParseOf_or_report silentTokens 17).1 hsilent⟩

end Rivulet.Source
