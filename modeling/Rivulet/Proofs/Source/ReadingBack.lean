import Rivulet.Proofs.Source.Grouping
import Rivulet.Proofs.Source.ReadingTypes

set_option autoImplicit false

/-! # Reading written expressions and statements back

What the grammar makes of expressions and statements in their written form. Alternatives are
ordered, so for each form of tree the alternatives in front of the right one have to refuse it. Most
do at the first token. The others are these:

* an expression in parentheses looks like a parameter list if it is a name, but no arrow follows it;
* a closure with an expression looks like one with a block as far as its parameters have types, and
  even farther if its body is the name of a type, but no block follows it;
* a sequence looks like an empty one with a type if it is empty, but no type follows it;
* a statement that starts with a name may be a declaration, an assignment or an expression.

What follows an expression therefore matters. `exprEnds` lists what may follow an expression, and
`parenEnds` what may follow one in parentheses. -/

namespace Rivulet.Source

open Grammar Gram Printer

variable {α : Type} {n : Nat} {i k m : List Token}

/-! ## What follows -/

/-- One of the given marks stands next. -/
def Stops (ms : List Mark) (k : List Token) : Prop := ∃ t ∈ ms, ∃ k', k = .mark t :: k'

/-- The marks behind an expression. -/
def exprEnds : List Mark := [.rparen, .comma, .semicolon]

/-- The marks behind an expression in parentheses. -/
def parenEnds : List Mark := [.rparen, .rbracket, .comma, .semicolon, .lbrace]

namespace Stops

variable {ms : List Mark}

theorem mark {t : Mark} (ht : t ∈ ms) (k : List Token) : Stops ms (.mark t :: k) := ⟨t, ht, k, rfl⟩

theorem inParens (hk : Stops exprEnds k) : Stops parenEnds k := by
  obtain ⟨t, ht, k', rfl⟩ := hk
  have hsub : exprEnds ⊆ parenEnds := by decide
  exact ⟨t, hsub ht, k', rfl⟩

theorem head?_ne (hk : Stops ms k) {t : Mark} (ht : t ∉ ms) : k.head? ≠ some (.mark t) := by
  obtain ⟨u, hu, k', rfl⟩ := hk
  rintro ⟨⟩
  exact ht hu

theorem refuses (hk : Stops ms k) (g : G α)
    (h : ∀ t ∈ ms, g.outlook (Rule.outlook (some (.mark t))) (some (.mark t)) = .refuses) :
    Refuses (@Rule.parser n) g k := by
  obtain ⟨t, ht, k', rfl⟩ := hk
  exact refuses_of_outlook g (h t ht) k'

end Stops

/-! ## The first token of an expression -/

/-- Whether an expression in its written form may start with the token. -/
def startsExpr : Token → Bool
  | .int _ | .str _ | .ident _ => true
  | .keyword w => w = .true ∨ w = .false
  | .mark t => t ∈ [Mark.minus, .not, .lparen, .lbracket]

theorem Expr.tokens_eq_cons {e : Expr} (he : e.isWritable = true) :
    ∃ t ts, e.tokens = t :: ts ∧ startsExpr t = true := by
  cases e with
  | literal v s =>
      refine ⟨v.token, [], rfl, ?_⟩
      rcases v with _ | _ | (_ | _) <;> rfl
  | unary op e s => cases op <;> exact ⟨_, _, rfl, rfl⟩
  | error s => cases he
  | _ => exact ⟨_, _, rfl, rfl⟩

theorem Expr.head?_tokens_ne {e : Expr} (he : e.isWritable = true) {t : Token}
    (ht : startsExpr t = false) (k : List Token) : (e.tokens ++ k).head? ≠ some t := by
  obtain ⟨u, ts, htokens, hu⟩ := e.tokens_eq_cons he
  rw [htokens]
  rintro ⟨⟩
  rw [hu] at ht
  cases ht

/-- Only a name starts with a name. -/
theorem Expr.name_or_refuses_ident {e : Expr} (he : e.isWritable = true) (n : Nat)
    (k : List Token) :
    (∃ x s, e = .name x s) ∨ Refuses (@Rule.parser n) G.ident (e.tokens ++ k) := by
  cases e with
  | name x s => exact .inl ⟨x, s, rfl⟩
  | literal v s =>
      right
      apply Refuses.pick
      rcases v with _ | _ | (_ | _) <;> rfl
  | error s => cases he
  | _ =>
      right
      apply Refuses.pick
      rfl

/-! ## Forms that are refused -/

theorem refuses_blockClosure_of_head (h : i.head? ≠ some (.mark .lparen)) :
    Refuses (@Rule.parser n) G.blockClosure i :=
  .located (.seq_left (.seq_left (Refuses.between (refuses_mark h))))

theorem refuses_lambda_of_head (h : i.head? ≠ some (.mark .lparen))
    (hident : Refuses (@Rule.parser n) G.ident i) : Refuses (@Rule.parser n) G.lambda i :=
  .located (.seq_left (.left (.orElse (Refuses.between (refuses_mark h))
    (.map (.located (.seq_left hident))))))

theorem refuses_unaryOp (hminus : i.head? ≠ some (.mark .minus))
    (hnot : i.head? ≠ some (.mark .not)) : Refuses (@Rule.parser n) G.unaryOp i :=
  .located (.orElse (.map (refuses_mark hminus)) (.map (refuses_mark hnot)))

/-- Where a sign behind a name would decide for another form, an expression is refused: it is no
name, or something else stands behind it. -/
theorem Expr.refuses_named {e : Expr} (he : e.isWritable = true) {t u : Mark} (htu : t ≠ u)
    (k : List Token) :
    Refuses (@Rule.parser n) (.left G.ident (G.mark t)) (e.tokens ++ .mark u :: k) := by
  rcases e.name_or_refuses_ident he n (.mark u :: k) with ⟨x, s, rfl⟩ | hident
  · have hmark : Refuses (@Rule.parser n) (G.mark t) (.mark u :: k) :=
      refuses_mark (by simpa using Ne.symm htu)
    exact .map (.seq_right (reads_ident x _) hmark)
  · exact hident.left

/-- An expression in parentheses is not taken for the parameters of a closure with a block. -/
theorem Expr.refuses_blockClosure {e : Expr} (he : e.isWritable = true) (k : List Token) :
    Refuses (@Rule.parser n) G.blockClosure
      (.mark .lparen :: (e.tokens ++ .mark .rparen :: k)) := by
  have hparam : Refuses (@Rule.parser n) G.param (e.tokens ++ .mark .rparen :: k) :=
    .located (.seq_left (e.refuses_named he (by decide) k))
  have hparams := refuses_parens (reads_commas_nil hparam)
    (e.head?_tokens_ne he rfl (.mark .rparen :: k))
  exact .located (.seq_left (.seq_left hparams))

/-- An expression in parentheses is not taken for the parameters of a closure, because no arrow
follows. -/
theorem Expr.refuses_lambda {e : Expr} (he : e.isWritable = true)
    (hk : k.head? ≠ some (.mark .arrow)) :
    Refuses (@Rule.parser n) G.lambda (.mark .lparen :: (e.tokens ++ .mark .rparen :: k)) := by
  refine .located (.seq_left ?_)
  rcases e.name_or_refuses_ident he n (.mark .rparen :: k) with ⟨x, s, rfl⟩ | hident
  · -- a name is a parameter without a type
    have hparams : Reads (@Rule.parser n) (G.parens (G.commas G.openParam))
        (.mark .lparen :: .ident x :: .mark .rparen :: k) k _ :=
      @reads_openParams n [⟨x, none, s⟩] (by simp) k
    exact .map (.seq_right (.orElse_left hparams) (refuses_mark hk))
  · have hparam : Refuses (@Rule.parser n) G.openParam (e.tokens ++ .mark .rparen :: k) :=
      .located (.seq_left hident)
    have hparams := refuses_parens (reads_commas_nil hparam)
      (e.head?_tokens_ne he rfl (.mark .rparen :: k))
    exact .left (.orElse hparams (refuses_of_outlook _ (by decide) _))

/-- A type starts with its name, with a bracket or with a keyword. -/
theorem refuses_type_of_forms (hname : Refuses (@Rule.parser n) G.typeName i)
    (hseq : Refuses (@Rule.parser n) (G.brackets (.rule .type)) i)
    (hfn : i.head? ≠ some (.keyword .fn)) : Refuses (@Rule.parser n) G.type i :=
  .orElse (.orElse hname (.map hseq)) (.map (.seq_left (.right (.token hfn))))

/-- What starts like a sequence, but has no type inside, is not taken for a type. -/
theorem refuses_type_bracket {t : Mark} (ht : t = .lparen ∨ t = .rbracket) (k : List Token) :
    Refuses (@Rule.parser n) G.type (.mark .lbracket :: .mark t :: k) := by
  have hinner : Refuses (@Rule.parser n) (.rule .type) (.mark t :: k) := by
    rcases ht with rfl | rfl <;> exact refuses_of_outlook _ (by decide) k
  exact refuses_type_of_forms (refuses_of_outlook _ (by decide) _)
    (.left (.map (.seq_right (reads_mark .lbracket _) hinner))) (by simp)

/-- What is no name of a type is not taken for a type. -/
theorem Expr.refuses_type {e : Expr} (he : e.isWritable = true)
    (hname : ∀ x s, e = .name x s → TypeName.ofSpelling? x = none) (k : List Token) :
    Refuses (@Rule.parser n) (.rule .type) (e.tokens ++ k) := by
  refine refuses_rule fun n => ?_
  have hfn := e.head?_tokens_ne he (t := .keyword .fn) rfl k
  cases e with
  | seq es s =>
      cases es with
      | nil => exact refuses_type_bracket (.inr rfl) _
      | cons e es =>
          rw [Expr.tokens, brackets_append, Expr.tokensInParens_eq, List.map_cons, commas,
            intercalate_cons, List.append_assoc, parens_append]
          exact refuses_type_bracket (.inl rfl) _
  | emptySeq t s => exact refuses_type_bracket (.inr rfl) _
  | name x s =>
      refine refuses_type_of_forms (.pick ?_) (Refuses.between (refuses_mark ?_)) hfn
      · simp [Expr.tokens, hname x s rfl]
      · simp [Expr.tokens]
  | literal v s =>
      refine refuses_type_of_forms (.pick ?_) (Refuses.between (refuses_mark ?_)) hfn <;>
        rcases v with _ | _ | (_ | _) <;> simp [Expr.tokens, Literal.token]
  | unary op e s =>
      cases op <;> exact refuses_of_outlook _ (by decide) _
  | error s => cases he
  | _ => exact refuses_of_outlook _ (by decide) _

/-! ## Expressions in parentheses -/

/-- An expression in its written form is read back by rules nested at most `n` deep. -/
def Expr.ReadBack (n : Nat) (e : Expr) : Prop :=
  ∀ k, Stops exprEnds k →
    Reads (@Rule.parser n) (.rule .expr) (e.tokens ++ k) k fun a => a.bare = e.bare

theorem reads_parenthesized {e : Expr} (hback : e.ReadBack n) (k : List Token) :
    Reads (@Rule.parser n) G.parenthesized (parens e.tokens ++ k) k fun a => a.bare = e.bare := by
  rw [parens_append]
  have hinner := reads_parens (hback (.mark .rparen :: k) (.mark (by decide) k))
  exact .orSkipBrackets (.located (hinner.weaken fun a h s => by rw [Expr.bare_withSpan, h]))

/-- In front of anything but an arrow, an expression in parentheses is an atom. -/
theorem reads_atom_parens {e : Expr} (he : e.isWritable = true) (hback : e.ReadBack n)
    (hk : k.head? ≠ some (.mark .arrow)) :
    Reads (@Rule.parser n) G.atom (parens e.tokens ++ k) k fun a => a.bare = e.bare := by
  have hread := reads_parenthesized hback k
  rw [parens_append] at hread ⊢
  refine .orElse_right (.orElse (.orElse (.orElse (.orElse (.orElse ?_ ?_) ?_) ?_) ?_) ?_) hread
  · exact e.refuses_blockClosure he k
  · exact e.refuses_lambda he hk
  all_goals exact refuses_of_outlook _ (by decide) _

/-! ## Atoms, operands and expressions -/

section Layers

variable {P : Expr → Prop}

/-- An atom without suffixes. -/
theorem reads_applied (h : Reads (@Rule.parser n) G.atom i k P)
    (hk : Refuses (@Rule.parser n) G.suffix k) : Reads (@Rule.parser n) G.applied i k P := by
  refine .map ((h.seq (.many (.stop hk))).weaken ?_)
  rintro ⟨e, ss⟩ ⟨he, rfl⟩
  exact he

/-- An applied atom without unary operators. -/
theorem reads_operand (h : Reads (@Rule.parser n) G.applied i k P)
    (hi : Refuses (@Rule.parser n) G.unaryOp i) : Reads (@Rule.parser n) G.operand i k P := by
  refine .map (((Reads.many (.stop hi)).seq h).weaken ?_)
  rintro ⟨ops, e⟩ ⟨rfl, he⟩
  exact he

/-- An operand without binary operators. -/
theorem reads_expr (h : Reads (@Rule.parser n) G.operand i k P)
    (hk : Refuses (@Rule.parser n) (.pick G.binaryOp?) k) :
    Reads (@Rule.parser n) G.expr i k P := by
  refine .map ((h.seq (.many (.stop (.seq_left hk)))).weaken ?_)
  rintro ⟨e, rest⟩ ⟨he, rfl⟩
  show P (climb e [])
  rwa [climb_nil]

/-- An atom alone is an expression. -/
theorem reads_expr_of_atom (h : Reads (@Rule.parser n) G.atom i k P)
    (hi : Refuses (@Rule.parser n) G.unaryOp i) (hk : Stops parenEnds k) :
    Reads (@Rule.parser (n + 1)) (.rule .expr) i k P :=
  reads_rule (reads_expr (reads_operand (reads_applied h (hk.refuses _ (by decide))) hi)
    (hk.refuses _ (by decide)))

end Layers

/-- An operand in parentheses. -/
theorem reads_operand_parens {e : Expr} (he : e.isWritable = true) (hback : e.ReadBack n)
    (hk : k.head? ≠ some (.mark .arrow)) (hsuffix : Refuses (@Rule.parser n) G.suffix k) :
    Reads (@Rule.parser n) G.operand (parens e.tokens ++ k) k fun a => a.bare = e.bare := by
  refine reads_operand (reads_applied (reads_atom_parens he hback hk) hsuffix) ?_
  rw [parens_append]
  exact refuses_of_outlook _ (by decide) _

/-- An expression in parentheses is read back, too. -/
theorem reads_expr_parens {e : Expr} (he : e.isWritable = true) (hback : e.ReadBack n)
    (hk : Stops parenEnds k) :
    Reads (@Rule.parser (n + 1)) (.rule .expr) (parens e.tokens ++ k) k
      fun a => a.bare = e.bare := by
  refine reads_expr_of_atom (reads_atom_parens he hback (hk.head?_ne (by decide))) ?_ hk
  rw [parens_append]
  exact refuses_of_outlook _ (by decide) _

/-- Arguments and elements are read back. -/
theorem reads_exprs {es : List Expr} (hes : ∀ e ∈ es, e.isWritable = true ∧ e.ReadBack n)
    {t : Mark} (ht : t = .rparen ∨ t = .rbracket) (k : List Token) :
    Reads (@Rule.parser (n + 1)) (G.commas (.rule .expr))
      (commas (es.map fun e => parens e.tokens) ++ .mark t :: k) (.mark t :: k)
      fun as => as.map Expr.bare = es.map Expr.bare := by
  have hitem : ∀ e ∈ es, ∀ k, Stops parenEnds k →
      Reads (@Rule.parser (n + 1)) (.rule .expr) (parens e.tokens ++ k) k
        fun a => a.bare = e.bare :=
    fun e he k hk => reads_expr_parens (hes e he).1 (hes e he).2 hk
  rcases ht with rfl | rfl <;>
    exact reads_commas (Stops parenEnds) _ _ (by decide) hitem (fun k => .mark (by decide) k)
      (.mark (by decide) k) (refuses_of_outlook _ (by decide) k)

/-! ## Each form of expression -/

theorem Literal.readBack {v : Literal} (s : Span) : (Expr.literal v s).ReadBack (n + 1) := by
  intro k hk
  have hread : Reads (@Rule.parser n) G.literal (v.token :: k) k
      fun a => a.bare = (Expr.literal v s).bare := by
    refine .located (Reads.weaken (P := (· = v)) (.pick ?_ k) ?_)
    · rcases v with _ | _ | (_ | _) <;> rfl
    · rintro _ rfl s
      rfl
  have hfirst : ∀ t : Mark, (v.token :: k).head? ≠ some (.mark t) := by
    rcases v with _ | _ | (_ | _) <;> simp [Literal.token]
  have hident : Refuses (@Rule.parser n) G.ident (v.token :: k) := by
    apply Refuses.pick
    rcases v with _ | _ | (_ | _) <;> rfl
  refine reads_expr_of_atom (.orElse_left (.orElse_left (.orElse_left (.orElse_left
    (.orElse_right (.orElse ?_ ?_) hread))))) (refuses_unaryOp (hfirst _) (hfirst _)) hk.inParens
  · exact refuses_blockClosure_of_head (hfirst _)
  · exact refuses_lambda_of_head (hfirst _) hident

theorem Expr.readBack_name (x : String) (s : Span) : (Expr.name x s).ReadBack (n + 1) := by
  intro k hk
  have hread : Reads (@Rule.parser n) G.name (.ident x :: k) k
      fun a => a.bare = (Expr.name x s).bare := by
    refine .located ((reads_ident x k).weaken ?_)
    rintro _ rfl s
    rfl
  have hfirst : ∀ t : Mark, (.ident x :: k).head? ≠ some (Token.mark t) := by simp
  have hparam : Reads (@Rule.parser n) G.openParam (.ident x :: k) k
      fun q => q.bare = OpenParam.bare ⟨x, none, s⟩ :=
    OpenParam.reads (p := ⟨x, none, s⟩) (by simp) (hk.head?_ne (by decide))
      (hk.head?_ne (by decide))
  refine reads_expr_of_atom (.orElse_left (.orElse_left (.orElse_left (.orElse_right
    (.orElse (.orElse ?_ ?_) ?_) hread)))) (refuses_unaryOp (hfirst _) (hfirst _)) hk.inParens
  · exact refuses_blockClosure_of_head (hfirst _)
  · -- the name is a parameter, but no arrow follows it
    have hparens : Refuses (@Rule.parser n) (G.parens (G.commas G.openParam)) (.ident x :: k) :=
      .between (refuses_mark (hfirst _))
    have hone : Reads (@Rule.parser n) (.map (fun p => [p]) G.openParam) (.ident x :: k) k
        fun _ => True := .map (hparam.weaken fun _ _ => trivial)
    exact .located (.seq_left (.map (.seq_right (.orElse_right hparens hone)
      (refuses_mark (hk.head?_ne (by decide))))))
  · exact .located (.pick rfl)

theorem Expr.ReadBack.unary {e : Expr} (he : e.isWritable = true) (hback : e.ReadBack n)
    (op : UnaryOp) (s : Span) : (Expr.unary op e s).ReadBack (n + 1) := by
  intro k hk
  have hop : ∀ k, Reads (@Rule.parser n) G.unaryOp (.mark (unaryMark op) :: k) k
      fun p => p.1 = op := by
    intro k
    refine .located ?_
    cases op with
    | negate =>
        exact .orElse_left (((reads_mark .minus k).as (x := UnaryOp.negate)).weaken fun _ h _ => h)
    | not =>
        exact .orElse_right (refuses_of_outlook _ (by decide) k)
          (((reads_mark .not k).as (x := UnaryOp.not)).weaken fun _ h _ => h)
  have hstop : Refuses (@Rule.parser n) G.unaryOp (parens e.tokens ++ k) := by
    rw [parens_append]
    exact refuses_of_outlook _ (by decide) _
  have hops := Reads.many (.step (hop (parens e.tokens ++ k)) (by simp) (.stop hstop))
  have happlied := reads_applied
    (reads_atom_parens he hback (hk.head?_ne (by decide))) (hk.refuses _ (by decide))
  refine reads_rule (reads_expr (.map ((hops.seq happlied).weaken ?_))
    (hk.refuses _ (by decide)))
  rintro ⟨ops, a⟩ ⟨⟨⟨op', s'⟩, rest, rfl, rfl, rfl⟩, ha⟩
  simp only [List.foldr_cons, List.foldr_nil, G.applyUnary, Expr.bare]
  rw [ha]

theorem binaryOp?_binaryMark (op : BinaryOp) : G.binaryOp? (.mark (binaryMark op)) = some op := by
  cases op <;> rfl

theorem Expr.ReadBack.binary {l r : Expr} (hl : l.isWritable = true) (hbackl : l.ReadBack n)
    (hr : r.isWritable = true) (hbackr : r.ReadBack n) (op : BinaryOp) (s : Span) :
    (Expr.binary op l r s).ReadBack (n + 1) := by
  intro k hk
  have hleft := reads_operand_parens hl hbackl
    (k := .mark (binaryMark op) :: (parens r.tokens ++ k)) (by cases op <;> simp [binaryMark])
    (by cases op <;> exact refuses_of_outlook _ (by decide) _)
  have hright := reads_operand_parens hr hbackr (hk.head?_ne (by decide))
    (hk.refuses _ (by decide))
  have hop : Reads (@Rule.parser n) (.pick G.binaryOp?)
      (.mark (binaryMark op) :: (parens r.tokens ++ k)) (parens r.tokens ++ k) (· = op) :=
    .pick (binaryOp?_binaryMark op) _
  have hrest := Reads.many (.step (hop.seq hright) (by simp)
    (.stop (.seq_left (hk.refuses _ (by decide)))))
  have htokens : (Expr.binary op l r s).tokens ++ k
      = parens l.tokens ++ .mark (binaryMark op) :: (parens r.tokens ++ k) := by
    simp [Expr.tokens]
  rw [htokens]
  refine reads_rule (.map ((hleft.seq hrest).weaken ?_))
  rintro ⟨a, rest⟩ ⟨ha, ⟨op', b⟩, rest', rfl, ⟨rfl, hb⟩, rfl⟩
  show (climb a [(op', b)]).bare = _
  rw [climb_single, Expr.bare, Expr.bare, ha, hb]

theorem Expr.ReadBack.seq {es : List Expr} (hes : ∀ e ∈ es, e.isWritable = true ∧ e.ReadBack n)
    (s : Span) : (Expr.seq es s).ReadBack (n + 2) := by
  intro k hk
  have htokens : (Expr.seq es s).tokens ++ k = .mark .lbracket ::
      (commas (es.map fun e => parens e.tokens) ++ .mark .rbracket :: k) := by
    rw [Expr.tokens, brackets_append, Expr.tokensInParens_eq]
  rw [htokens]
  have hinner := reads_brackets (reads_exprs hes (.inr rfl) k)
  have hread : Reads (@Rule.parser (n + 1)) G.seq (.mark .lbracket ::
      (commas (es.map fun e => parens e.tokens) ++ .mark .rbracket :: k)) k
      fun a => a.bare = (Expr.seq es s).bare :=
    .orSkipBrackets (.located (hinner.weaken fun as h s => by simp [Expr.bare, h]))
  refine reads_expr_of_atom (.orElse_left (.orElse_right (.orElse (.orElse (.orElse (.orElse ?_ ?_)
    ?_) ?_) ?_) hread)) (refuses_of_outlook _ (by decide) _) hk.inParens
  · exact refuses_of_outlook _ (by decide) _
  · exact refuses_of_outlook _ (by decide) _
  · exact refuses_of_outlook _ (by decide) _
  · exact refuses_of_outlook _ (by decide) _
  · -- no type stands behind an empty sequence, and no bracket in front of an element
    cases es with
    | nil =>
        have hempty := (reads_mark (n := n + 1) .lbracket (.mark .rbracket :: k)).seq
          (reads_mark .rbracket k)
        exact .located (.map (.seq_right hempty (hk.refuses _ (by decide))))
    | cons e es =>
        rw [List.map_cons, commas, intercalate_cons, List.append_assoc, parens_append]
        exact .located (.map (.seq_left (.seq_right (reads_mark .lbracket _)
          (refuses_mark (by simp)))))

theorem Expr.readBack_emptySeq {t : TypeExpr} (ht : t.ReadBack n) (s : Span) :
    (Expr.emptySeq t s).ReadBack (n + 1) := by
  intro k hk
  have hopen := (reads_mark (n := n) .lbracket (.mark .rbracket :: (t.tokens ++ k))).seq
    (reads_mark .rbracket (t.tokens ++ k))
  have hread : Reads (@Rule.parser n) G.emptySeq (.mark .lbracket :: .mark .rbracket ::
      (t.tokens ++ k)) k fun a => a.bare = (Expr.emptySeq t s).bare := by
    refine .located ((hopen.right (ht k (hk.head?_ne (by decide)))).weaken ?_)
    rintro _ rfl s
    rfl
  refine reads_expr_of_atom (.orElse_left (.orElse_left (.orElse_right (.orElse (.orElse (.orElse ?_
    ?_) ?_) ?_) hread))) (refuses_of_outlook _ (by decide) _) hk.inParens
  all_goals exact refuses_of_outlook _ (by decide) _

/-- An expression in parentheses with one suffix behind it. -/
theorem reads_suffixed {e : Expr} (he : e.isWritable = true) (hback : e.ReadBack n)
    {Q : G.Suffix → Prop} {P : Expr → Prop} (hi : i.head? ≠ some (.mark .arrow))
    (hsuffix : Reads (@Rule.parser n) G.suffix i k Q) (hlength : k.length < i.length)
    (hk : Stops exprEnds k) (hP : ∀ a x, a.bare = e.bare → Q x → P (x.apply a)) :
    Reads (@Rule.parser (n + 1)) (.rule .expr) (parens e.tokens ++ i) k P := by
  have hsuffixes := Reads.many (.step hsuffix hlength (.stop (hk.refuses _ (by decide))))
  have happlied : Reads (@Rule.parser n) G.applied (parens e.tokens ++ i) k P := by
    refine .map (((reads_atom_parens he hback hi).seq hsuffixes).weaken ?_)
    rintro ⟨a, ss⟩ ⟨ha, x, rest, rfl, hx, rfl⟩
    exact hP a x ha hx
  refine reads_rule (reads_expr (reads_operand happlied ?_) (hk.refuses _ (by decide)))
  rw [parens_append]
  exact refuses_of_outlook _ (by decide) _

theorem Expr.ReadBack.call {f : Expr} {as : List Expr} (hf : f.isWritable = true)
    (hbackf : f.ReadBack (n + 1)) (has : ∀ e ∈ as, e.isWritable = true ∧ e.ReadBack n) (s : Span) :
    (Expr.call f as s).ReadBack (n + 2) := by
  intro k hk
  have htokens : (Expr.call f as s).tokens ++ k = parens f.tokens ++ .mark .lparen ::
      (commas (as.map fun e => parens e.tokens) ++ .mark .rparen :: k) := by
    rw [Expr.tokens, List.append_assoc, parens_append (commas _), Expr.tokensInParens_eq]
  have hsuffix : Reads (@Rule.parser (n + 1)) G.suffix (.mark .lparen ::
      (commas (as.map fun e => parens e.tokens) ++ .mark .rparen :: k)) k
      fun x => ∃ bs s, x = .call bs s ∧ bs.map Expr.bare = as.map Expr.bare :=
    .orElse_left (.located ((reads_parens (reads_exprs has (.inl rfl) k)).weaken
      fun bs h s => ⟨bs, s, rfl, h⟩))
  rw [htokens]
  refine reads_suffixed hf hbackf (by simp) hsuffix (by simp; omega) hk ?_
  rintro a _ ha ⟨bs, s', rfl, hbs⟩
  simp [G.Suffix.apply, Expr.bare, ha, hbs]

theorem Expr.ReadBack.index {e j : Expr} (he : e.isWritable = true) (hbacke : e.ReadBack (n + 1))
    (hj : j.isWritable = true) (hbackj : j.ReadBack n) (s : Span) :
    (Expr.index e j s).ReadBack (n + 2) := by
  intro k hk
  have htokens : (Expr.index e j s).tokens ++ k = parens e.tokens ++ .mark .lbracket ::
      (parens j.tokens ++ .mark .rbracket :: k) := by
    rw [Expr.tokens, List.append_assoc, brackets_append]
  have hinner := reads_brackets (reads_expr_parens hj hbackj (k := .mark .rbracket :: k)
    (.mark (by decide) k))
  have hsuffix : Reads (@Rule.parser (n + 1)) G.suffix (.mark .lbracket ::
      (parens j.tokens ++ .mark .rbracket :: k)) k
      fun x => ∃ b s, x = .index b s ∧ b.bare = j.bare :=
    .orElse_right (refuses_of_outlook _ (by decide) _)
      (.located (hinner.weaken fun b h s => ⟨b, s, rfl, h⟩))
  rw [htokens]
  refine reads_suffixed he hbacke (by simp) hsuffix (by simp; omega) hk ?_
  rintro a _ ha ⟨b, s', rfl, hb⟩
  simp [G.Suffix.apply, Expr.bare, ha, hb]

/-! ## Blocks -/

/-- A statement in its written form is read back by rules nested at most `n` deep. Its semicolon is
read with it, so it does not matter what follows. -/
def Stmt.ReadBack (n : Nat) (s : Stmt) : Prop :=
  ∀ k, Reads (@Rule.parser n) (.rule .stmt) (s.tokens ++ k) k fun t => t.bare = s.bare

theorem Stmt.tokens_ne_nil {s : Stmt} (hs : s.isWritable = true) : s.tokens ≠ [] := by
  cases s with
  | error _ => cases hs
  | _ => simp [Stmt.tokens]

/-- A block in its written form is read back. -/
theorem reads_block {ss : List Stmt} (hss : ∀ s ∈ ss, s.isWritable = true ∧ s.ReadBack n)
    (k : List Token) :
    Reads (@Rule.parser n) G.block (braces (ss.flatMap Stmt.tokens) ++ k) k
      fun ts => ts.map Stmt.bare = ss.map Stmt.bare := by
  have hstop : Refuses (@Rule.parser n) (.rule .stmt) (.mark .rbrace :: k) :=
    refuses_rule fun n => refuses_of_outlook _ (by decide) k
  have hstmts := Reads.many
    (.each (fun s hs => (hss s hs).2) (fun s hs => s.tokens_ne_nil (hss s hs).1) hstop)
  rw [braces_append]
  exact .orSkipBrackets (((reads_mark .lbrace _).right hstmts).left (reads_mark .rbrace k))

/-- Where no brace stands there is no block. -/
theorem refuses_block (h : i.head? ≠ some (.mark .lbrace)) : Refuses (@Rule.parser n) G.block i :=
  .orSkipBrackets (Refuses.between (refuses_mark h)) h

/-! ## Closures -/

/-- Where the body of a closure could be a type, it is the name of one. -/
theorem Expr.eq_typeName_of_not_refuses {e : Expr} (he : e.isWritable = true)
    (h : ¬ Refuses (@Rule.parser n) (.rule .type) (e.tokens ++ k)) :
    ∃ (t : TypeName) (s : Span), e = .name t.spelling s := by
  by_contra hne
  refine h (e.refuses_type he (fun x s hx => ?_) k)
  by_contra hsome
  obtain ⟨t, ht⟩ := Option.ne_none_iff_exists'.1 hsome
  have hspelling : t.spelling = x := by simpa using List.find?_some ht
  exact hne ⟨t, s, by rw [hx, hspelling]⟩

/-- Behind the arrow of a closure with an expression there may be what looks like results, but no
block. -/
theorem refuses_results_block {e : Expr} (he : e.isWritable = true) (hk : Stops exprEnds k)
    {a : G α} {P : α → Prop}
    (ha : Reads (@Rule.parser n) a i (.mark .arrow :: (parens e.tokens ++ k)) P) :
    Refuses (@Rule.parser n) (.seq (.seq a G.arrowResults) G.block) i := by
  rw [parens_append] at ha
  have hparen : Refuses (@Rule.parser n) (.map (fun t => [t]) (.rule .type))
      (.mark .lparen :: (e.tokens ++ .mark .rparen :: k)) :=
    refuses_of_outlook _ (by decide) _
  by_cases hbody : Refuses (@Rule.parser n) (.rule .type) (e.tokens ++ .mark .rparen :: k)
  · -- there are no results, and the arrow stands where the block should
    have hlist := refuses_parens (reads_commas_nil hbody)
      (e.head?_tokens_ne he rfl (.mark .rparen :: k))
    have hresults : Refuses (@Rule.parser n) (.right (G.mark .arrow) G.results)
        (.mark .arrow :: .mark .lparen :: (e.tokens ++ .mark .rparen :: k)) :=
      .map (.seq_right (reads_mark .arrow _) (.orElse hparen hlist))
    have hnone : Reads (@Rule.parser n) G.arrowResults _ _ fun _ => True :=
      .map ((Reads.optional_none hresults).weaken fun _ _ => trivial)
    exact .seq_right (ha.seq hnone) (refuses_block (by simp))
  · -- the body is the name of a type, and what follows it is no block
    obtain ⟨t, s, rfl⟩ := e.eq_typeName_of_not_refuses he hbody
    cases n with
    | zero => exact absurd (refuses_zero _) hbody
    | succ n =>
        have hlist : Reads (@Rule.parser (n + 1)) (G.parens (G.commas (.rule .type)))
            (.mark .lparen :: .ident t.spelling :: .mark .rparen :: k) k _ :=
          reads_parens (@reads_types (n + 1) [.named t] (by simpa using t.readBack) k)
        have hresults := ((reads_mark .arrow _).right (.orElse_right hparen hlist)).optional_some
        have hsome : Reads (@Rule.parser (n + 1)) G.arrowResults _ k fun _ => True :=
          .map (hresults.weaken fun _ _ => trivial)
        exact .seq_right (ha.seq hsome) (refuses_block (hk.head?_ne (by decide)))

theorem Expr.ReadBack.lambda {ps : List OpenParam} {b : Expr}
    (hps : ∀ p ∈ ps, ∀ t ∈ p.ty, t.ReadBack (n + 1)) (hb : b.isWritable = true)
    (hback : b.ReadBack n) (cs : List String) (s : Span) :
    (Expr.lambda ps b cs s).ReadBack (n + 2) := by
  intro k hk
  have htokens : (Expr.lambda ps b cs s).tokens ++ k = .mark .lparen ::
      (commas (ps.map OpenParam.tokens) ++ .mark .rparen :: .mark .arrow ::
        (parens b.tokens ++ k)) := by
    rw [Expr.tokens, List.append_assoc, parens_append, List.cons_append]
  rw [htokens]
  -- the grammar tries a closure with a block first, and that has to fail
  have hblock : Refuses (@Rule.parser (n + 1)) G.blockClosure (.mark .lparen ::
      (commas (ps.map OpenParam.tokens) ++ .mark .rparen :: .mark .arrow ::
        (parens b.tokens ++ k))) := by
    refine .located ?_
    rcases OpenParam.all_typed_or ps with ⟨qs, rfl⟩ | ⟨qs, q, rest, rfl, hq⟩
    · have hqs : ∀ q ∈ qs, q.ty.ReadBack (n + 1) := fun q hq =>
        hps q.opened (List.mem_map_of_mem hq) q.ty rfl
      rw [List.map_map]
      exact refuses_results_block hb hk (reads_params hqs _)
    · have hqs : ∀ q ∈ qs, q.ty.ReadBack (n + 1) := fun q hq =>
        hps q.opened (List.mem_append_left _ (List.mem_map_of_mem hq)) q.ty rfl
      exact .seq_left (.seq_left (refuses_params hqs hq rest _))
  have hparams := (Reads.orElse_left (b := .map (fun p => [p]) G.openParam)
    (reads_openParams hps _)).left (reads_mark .arrow (parens b.tokens ++ k))
  have hread : Reads (@Rule.parser (n + 1)) G.lambda (.mark .lparen ::
      (commas (ps.map OpenParam.tokens) ++ .mark .rparen :: .mark .arrow ::
        (parens b.tokens ++ k))) k fun a => a.bare = (Expr.lambda ps b cs s).bare := by
    refine .located ((hparams.seq (reads_expr_parens hb hback hk.inParens)).weaken ?_)
    rintro ⟨qs, a⟩ ⟨hqs, ha⟩ s
    simp [Expr.bare, hqs, ha]
  exact reads_expr_of_atom (.orElse_left (.orElse_left (.orElse_left (.orElse_left (.orElse_left
    (.orElse_right hblock hread)))))) (refuses_of_outlook _ (by decide) _) hk.inParens

theorem Expr.readBack_block {ps : List Param} {rs : List TypeExpr} {b : List Stmt}
    (hps : ∀ p ∈ ps, p.ty.ReadBack n) (hrs : ∀ t ∈ rs, t.ReadBack n)
    (hb : ∀ s ∈ b, s.isWritable = true ∧ s.ReadBack n) (cs : List String) (s : Span) :
    (Expr.block ps rs b cs s).ReadBack (n + 1) := by
  intro k hk
  have htokens : (Expr.block ps rs b cs s).tokens ++ k = .mark .lparen ::
      (commas (ps.map Param.tokens) ++ .mark .rparen :: (arrow (rs.map TypeExpr.tokens) ++
        (braces (b.flatMap Stmt.tokens) ++ k))) := by
    rw [Expr.tokens, List.append_assoc, List.append_assoc, parens_append, Stmt.tokensBlock_eq]
  rw [htokens]
  have hread : Reads (@Rule.parser n) G.blockClosure (.mark .lparen ::
      (commas (ps.map Param.tokens) ++ .mark .rparen :: (arrow (rs.map TypeExpr.tokens) ++
        (braces (b.flatMap Stmt.tokens) ++ k)))) k
      fun a => a.bare = (Expr.block ps rs b cs s).bare := by
    refine .located ((((reads_params hps _).seq (reads_arrowResults_braces hrs _ k)).seq
      (reads_block hb k)).weaken ?_)
    rintro ⟨⟨qs, ts⟩, c⟩ ⟨⟨hqs, rfl⟩, hc⟩ s
    simp [Expr.bare, hqs, hc]
  exact reads_expr_of_atom (.orElse_left (.orElse_left (.orElse_left (.orElse_left (.orElse_left
    (.orElse_left hread)))))) (refuses_of_outlook _ (by decide) _) hk.inParens

/-! ## Each form of statement -/

/-- The forms of statements, without the semicolon. -/
def stmtForms : G (Span → Stmt) :=
  .orElse
    (.orElse
      (.orElse (.orElse (.orElse (.orElse G.declaration G.shortDeclaration) G.assignment)
        G.conditional) G.loop)
      G.return_)
    G.exprStmt

/-- A form of statement with a semicolon behind it is a statement. -/
theorem reads_stmt {P : Stmt → Prop}
    (h : Reads (@Rule.parser n) stmtForms i (.mark .semicolon :: k) fun f => ∀ s, P (f s)) :
    Reads (@Rule.parser (n + 1)) (.rule .stmt) i k P :=
  reads_rule (.left (.located h) (reads_mark .semicolon k).optional_some)

theorem reads_declaredType {t : Option TypeExpr} (ht : ∀ u ∈ t, u.ReadBack n) (k : List Token) :
    Reads (@Rule.parser n) G.declaredType (declaredType t ++ k) k (· = t) := by
  cases t with
  | none =>
      exact .orElse_right (refuses_of_outlook _ (by decide) _) (reads_mark .colonEq _).as
  | some t =>
      have htype := ht t rfl (.mark .eq :: k) (endsType_mark (by decide) _)
      rw [declaredType, List.cons_append, List.append_assoc, List.singleton_append]
      refine .orElse_left (.map ?_)
      refine (((reads_mark .colon _).right htype).left (.orElse_left (reads_mark .eq _))).weaken ?_
      rintro _ rfl
      rfl

theorem Stmt.readBack_declare {e : Expr} (hback : e.ReadBack n) {t : Option TypeExpr}
    (ht : ∀ u ∈ t, u.ReadBack n) (c : Bool) (x : String) (s : Span) :
    (Stmt.declare c x t e s).ReadBack (n + 1) := by
  intro k
  have hvalue := hback (.mark .semicolon :: k) (.mark (by decide) k)
  have hkind : ∀ k, Reads (@Rule.parser n)
      (.orElse (.as (G.word .var) false) (.as (G.word .const) true))
      (.keyword (if c then .const else .var) :: k) k (· = c) := by
    intro k
    cases c with
    | false => exact .orElse_left (reads_word .var k).as
    | true =>
        exact .orElse_right (refuses_of_outlook _ (by decide) k) (reads_word .const k).as
  have htype : Reads (@Rule.parser n) G.declaredType
      (declaredType t ++ (e.tokens ++ .mark .semicolon :: k)) (e.tokens ++ .mark .semicolon :: k)
      (· = t) := reads_declaredType ht _
  have htokens : (Stmt.declare c x t e s).tokens ++ k
      = .keyword (if c then .const else .var) :: .ident x ::
        (declaredType t ++ (e.tokens ++ .mark .semicolon :: k)) := by
    rw [Stmt.tokens]
    simp
  rw [htokens]
  refine reads_stmt (.orElse_left (.orElse_left (.orElse_left (.orElse_left (.orElse_left
    (.orElse_left (.map ?_)))))))
  refine ((((hkind _).seq (reads_ident x _)).seq htype).seq hvalue).weaken ?_
  rintro ⟨⟨⟨c', x'⟩, t'⟩, a⟩ ⟨⟨⟨rfl, rfl⟩, rfl⟩, ha⟩ s'
  simp [Stmt.bare, ha]

theorem Stmt.readBack_assign {e : Expr} (hback : e.ReadBack n) (x : String) (s : Span) :
    (Stmt.assign x e s).ReadBack (n + 1) := by
  intro k
  have htokens : (Stmt.assign x e s).tokens ++ k
      = .ident x :: .mark .eq :: (e.tokens ++ .mark .semicolon :: k) := by
    simp [Stmt.tokens]
  rw [htokens]
  have hname := (reads_ident (n := n) x _).left
    (reads_mark .eq (e.tokens ++ .mark .semicolon :: k))
  have hread : Reads (@Rule.parser n) G.assignment
      (.ident x :: .mark .eq :: (e.tokens ++ .mark .semicolon :: k)) (.mark .semicolon :: k)
      fun f => ∀ s', (f s').bare = (Stmt.assign x e s).bare := by
    refine .map ((hname.seq (hback _ (.mark (by decide) k))).weaken ?_)
    rintro ⟨x', a⟩ ⟨rfl, ha⟩ s'
    simp [Stmt.bare, ha]
  refine reads_stmt (.orElse_left (.orElse_left (.orElse_left (.orElse_left
    (.orElse_right (.orElse ?_ ?_) hread)))))
  · exact .map (.seq_left (.seq_left (.seq_left
      (.orElse (.map (.token (by simp))) (.map (.token (by simp)))))))
  · exact .map (.seq_left (.map (.seq_right (reads_ident x _) (refuses_mark (by simp)))))

/-- A condition with the block behind it. -/
theorem reads_condition {c : Expr} {b : List Stmt} (hc : c.isWritable = true)
    (hbackc : c.ReadBack n) (hb : ∀ s ∈ b, s.isWritable = true ∧ s.ReadBack (n + 1)) (w : Keyword)
    (k : List Token) :
    Reads (@Rule.parser (n + 1)) (.seq (.right (G.word w) (.rule .expr)) G.block)
      (.keyword w :: (parens c.tokens ++ (braces (b.flatMap Stmt.tokens) ++ k))) k
      fun p => p.1.bare = c.bare ∧ p.2.map Stmt.bare = b.map Stmt.bare := by
  have hcondition := reads_expr_parens hc hbackc (k := braces (b.flatMap Stmt.tokens) ++ k)
    (by rw [braces_append]; exact .mark (by decide) _)
  exact ((reads_word w _).right hcondition).seq (reads_block hb k)

theorem Stmt.readBack_ifThen {c : Expr} {b : List Stmt} (hc : c.isWritable = true)
    (hbackc : c.ReadBack n) (hb : ∀ s ∈ b, s.isWritable = true ∧ s.ReadBack (n + 1)) (s : Span) :
    (Stmt.ifThen c b s).ReadBack (n + 2) := by
  intro k
  have htokens : (Stmt.ifThen c b s).tokens ++ k = .keyword .if ::
      (parens c.tokens ++ (braces (b.flatMap Stmt.tokens) ++ .mark .semicolon :: k)) := by
    simp [Stmt.tokens]
  rw [htokens]
  have helse : Reads (@Rule.parser (n + 1)) (.optional (.right (G.word .else) G.block))
      (.mark .semicolon :: k) (.mark .semicolon :: k) (· = none) :=
    .optional_none (.right (.token (by simp)))
  refine reads_stmt (.orElse_left (.orElse_left (.orElse_left (.orElse_right
    (refuses_of_outlook _ (by decide) _)
    (.map (((reads_condition hc hbackc hb .if _).seq helse).weaken ?_))))))
  rintro ⟨⟨a, ss⟩, d⟩ ⟨⟨ha, hss⟩, rfl⟩ s'
  simp_all [Stmt.bare]

theorem Stmt.readBack_ifElse {c : Expr} {b d : List Stmt} (hc : c.isWritable = true)
    (hbackc : c.ReadBack n) (hb : ∀ s ∈ b, s.isWritable = true ∧ s.ReadBack (n + 1))
    (hd : ∀ s ∈ d, s.isWritable = true ∧ s.ReadBack (n + 1)) (s : Span) :
    (Stmt.ifElse c b d s).ReadBack (n + 2) := by
  intro k
  have htokens : (Stmt.ifElse c b d s).tokens ++ k = .keyword .if :: (parens c.tokens ++
      (braces (b.flatMap Stmt.tokens) ++ .keyword .else ::
        (braces (d.flatMap Stmt.tokens) ++ .mark .semicolon :: k))) := by
    simp [Stmt.tokens]
  rw [htokens]
  have helse := ((reads_word .else _).right (reads_block hd (.mark .semicolon :: k))).optional_some
  refine reads_stmt (.orElse_left (.orElse_left (.orElse_left (.orElse_right
    (refuses_of_outlook _ (by decide) _)
    (.map (((reads_condition hc hbackc hb .if _).seq helse).weaken ?_))))))
  rintro ⟨⟨a, ss⟩, ts⟩ ⟨⟨ha, hss⟩, ts, rfl, hts⟩ s'
  simp_all [Stmt.bare]

theorem Stmt.readBack_while {c : Expr} {b : List Stmt} (hc : c.isWritable = true)
    (hbackc : c.ReadBack n) (hb : ∀ s ∈ b, s.isWritable = true ∧ s.ReadBack (n + 1)) (s : Span) :
    (Stmt.while c b s).ReadBack (n + 2) := by
  intro k
  have htokens : (Stmt.while c b s).tokens ++ k = .keyword .while ::
      (parens c.tokens ++ (braces (b.flatMap Stmt.tokens) ++ .mark .semicolon :: k)) := by
    simp [Stmt.tokens]
  rw [htokens]
  refine reads_stmt (.orElse_left (.orElse_left (.orElse_right
    (refuses_of_outlook _ (by decide) _)
    (.map ((reads_condition hc hbackc hb .while _).weaken ?_)))))
  rintro ⟨a, ss⟩ ⟨ha, hss⟩ s'
  simp_all [Stmt.bare]

theorem Stmt.readBack_return {es : List Expr} (hes : ∀ e ∈ es, e.ReadBack n) (s : Span) :
    (Stmt.return es s).ReadBack (n + 1) := by
  intro k
  have htokens : (Stmt.return es s).tokens ++ k
      = .keyword .return :: (commas (es.map Expr.tokens) ++ .mark .semicolon :: k) := by
    simp [Stmt.tokens]
  rw [htokens]
  have hvalues : Reads (@Rule.parser n) (.sepBy (.rule .expr) (G.mark .comma) false)
      (commas (es.map Expr.tokens) ++ .mark .semicolon :: k) (.mark .semicolon :: k)
      fun as => as.map Expr.bare = es.map Expr.bare :=
    .sepBy (by simp) (fun e he k hk => hes e he k hk) (fun k => .mark (by decide) k)
      (.mark (by decide) k) (refuses_of_outlook _ (by decide) k)
  refine reads_stmt (.orElse_left (.orElse_right (refuses_of_outlook _ (by decide) _)
    (.map (((reads_word .return _).right hvalues).weaken ?_))))
  intro as has s'
  simp [Stmt.bare, has]

/-- What an expression starts with starts no other form of statement, except for a name, which has
no sign behind it that would make it a declaration or an assignment. -/
theorem Stmt.readBack_expr {e : Expr} (he : e.isWritable = true) (hback : e.ReadBack n) (s : Span) :
    (Stmt.expr e s).ReadBack (n + 1) := by
  intro k
  have htokens : (Stmt.expr e s).tokens ++ k = e.tokens ++ .mark .semicolon :: k := by
    simp [Stmt.tokens]
  rw [htokens]
  have hread : Reads (@Rule.parser n) G.exprStmt (e.tokens ++ .mark .semicolon :: k)
      (.mark .semicolon :: k) fun f => ∀ s', (f s').bare = (Stmt.expr e s).bare :=
    .map ((hback _ (.mark (by decide) k)).weaken fun a ha s' => by simp [Stmt.bare, ha])
  have hword : ∀ w : Keyword, startsExpr (.keyword w) = false →
      Refuses (@Rule.parser n) (G.word w) (e.tokens ++ .mark .semicolon :: k) :=
    fun w hw => .token (e.head?_tokens_ne he hw _)
  refine reads_stmt (.orElse_right (.orElse (.orElse (.orElse (.orElse (.orElse ?_ ?_) ?_) ?_) ?_)
    ?_) hread)
  · exact .map (.seq_left (.seq_left (.seq_left
      (.orElse (.map (hword .var rfl)) (.map (hword .const rfl))))))
  · exact .map (.seq_left (e.refuses_named he (by decide) k))
  · exact .map (.seq_left (e.refuses_named he (by decide) k))
  · exact .map (.seq_left (.seq_left (hword .if rfl).right))
  · exact .map (.seq_left (hword .while rfl).right)
  · exact .map (hword .return rfl).right

end Rivulet.Source
