import Rivulet.Proofs.Source.ReadingBack

set_option autoImplicit false

/-! # The parser inverts the printer

Every program that can be written is read back from its text: the parser reports nothing and returns
the same program, up to spans and captures (`Program.ofSource_text`). By induction on the tree, with
one lemma of the preceding module for each form; what is left to say is that the rules may be nested
deep enough, because a part of a tree has fewer tokens than the tree. -/

namespace Rivulet.Source

open Grammar Gram Printer

variable {n : Nat}

theorem length_le_block {s : Stmt} {ss : List Stmt} (h : s ∈ ss) :
    s.tokens.length ≤ (ss.flatMap Stmt.tokens).length := by
  obtain ⟨ss₁, ss₂, rfl⟩ := List.append_of_mem h
  simp only [List.flatMap_append, List.flatMap_cons, List.length_append]
  omega

theorem length_le_inParens {e : Expr} {es : List Expr} (h : e ∈ es) :
    e.tokens.length + 2 ≤ (commas (es.map fun e => parens e.tokens)).length := by
  have hle := length_le_commas (List.mem_map_of_mem (f := fun e : Expr => parens e.tokens) h)
  rwa [length_parens] at hle

theorem Param.readBack_of_mem {ps : List Param} (hn : (commas (ps.map Param.tokens)).length ≤ n)
    {p : Param} (hp : p ∈ ps) : p.ty.ReadBack n := by
  have hle := length_le_commas (List.mem_map_of_mem (f := Param.tokens) hp)
  simp only [Param.tokens, List.length_cons] at hle
  exact p.ty.readBack (by omega)

theorem OpenParam.readBack_of_mem {ps : List OpenParam}
    (hn : (commas (ps.map OpenParam.tokens)).length ≤ n) {p : OpenParam} (hp : p ∈ ps)
    {t : TypeExpr} (ht : t ∈ p.ty) : t.ReadBack n := by
  have hle := length_le_commas (List.mem_map_of_mem (f := OpenParam.tokens) hp)
  rw [OpenParam.tokens, Option.mem_def.1 ht] at hle
  simp only [List.length_cons] at hle
  exact t.readBack (by omega)

theorem TypeExpr.readBack_of_mem_arrow {ts : List TypeExpr}
    (hn : (arrow (ts.map TypeExpr.tokens)).length ≤ n) {t : TypeExpr} (ht : t ∈ ts) :
    t.ReadBack n := by
  have hle := length_le_arrow (List.mem_map_of_mem (f := TypeExpr.tokens) ht)
  exact t.readBack (by omega)

/-! ## Trees -/

mutual

/-- An expression that can be written is read back, if the rules may be nested as deep as it has
tokens. -/
theorem Expr.readBack : ∀ (e : Expr), e.isWritable = true →
    ∀ {n : Nat}, e.tokens.length ≤ n → e.ReadBack n
  | .literal v s, _, n, hn => by
      obtain ⟨n, rfl⟩ : ∃ m, n = m + 1 := ⟨n - 1, by simp [Expr.tokens] at hn; omega⟩
      exact Literal.readBack s
  | .name x s, _, n, hn => by
      obtain ⟨n, rfl⟩ : ∃ m, n = m + 1 := ⟨n - 1, by simp [Expr.tokens] at hn; omega⟩
      exact Expr.readBack_name x s
  | .unary op e s, he, n, hn => by
      have he' : e.isWritable = true := he
      simp only [Expr.tokens, length_parens, List.length_cons] at hn
      obtain ⟨n, rfl⟩ : ∃ m, n = m + 1 := ⟨n - 1, by omega⟩
      exact .unary he' (e.readBack he' (by omega)) op s
  | .binary op l r s, h, n, hn => by
      rw [Expr.isWritable, Bool.and_eq_true] at h
      simp only [Expr.tokens, length_parens, List.length_cons, List.length_append] at hn
      obtain ⟨n, rfl⟩ : ∃ m, n = m + 1 := ⟨n - 1, by omega⟩
      exact .binary h.1 (l.readBack h.1 (by omega)) h.2 (r.readBack h.2 (by omega)) op s
  | .seq es s, h, n, hn => by
      -- one level for the expression, one for what stands in the brackets
      simp only [Expr.tokens, length_brackets, Expr.tokensInParens_eq] at hn
      obtain ⟨n, rfl⟩ : ∃ m, n = m + 2 := ⟨n - 2, by omega⟩
      refine .seq (fun e he => Expr.readBack_of_mem es h e he ?_) s
      have := length_le_inParens he
      omega
  | .emptySeq t s, _, n, hn => by
      simp only [Expr.tokens, List.length_cons] at hn
      obtain ⟨n, rfl⟩ : ∃ m, n = m + 1 := ⟨n - 1, by omega⟩
      exact Expr.readBack_emptySeq (t.readBack (by omega)) s
  | .index e i s, h, n, hn => by
      rw [Expr.isWritable, Bool.and_eq_true] at h
      simp only [Expr.tokens, length_parens, length_brackets, List.length_append] at hn
      obtain ⟨n, rfl⟩ : ∃ m, n = m + 2 := ⟨n - 2, by omega⟩
      exact .index h.1 (e.readBack h.1 (by omega)) h.2 (i.readBack h.2 (by omega)) s
  | .call f as s, h, n, hn => by
      rw [Expr.isWritable, Bool.and_eq_true] at h
      simp only [Expr.tokens, Expr.tokensInParens_eq, length_parens, List.length_append] at hn
      obtain ⟨n, rfl⟩ : ∃ m, n = m + 2 := ⟨n - 2, by omega⟩
      refine .call h.1 (f.readBack h.1 (by omega))
        (fun e he => Expr.readBack_of_mem as h.2 e he ?_) s
      have := length_le_inParens he
      omega
  | .lambda ps b cs s, h, n, hn => by
      rw [Expr.isWritable, Bool.and_eq_true] at h
      simp only [Expr.tokens, length_parens, List.length_cons, List.length_append] at hn
      obtain ⟨n, rfl⟩ : ∃ m, n = m + 2 := ⟨n - 2, by omega⟩
      exact .lambda (fun p hp t ht => OpenParam.readBack_of_mem (by omega) hp ht) h.2
        (b.readBack h.2 (by omega)) cs s
  | .block ps rs b cs s, h, n, hn => by
      rw [Expr.isWritable, Bool.and_eq_true] at h
      simp only [Expr.tokens, length_parens, length_braces, Stmt.tokensBlock_eq,
        List.length_append] at hn
      obtain ⟨n, rfl⟩ : ∃ m, n = m + 1 := ⟨n - 1, by omega⟩
      refine Expr.readBack_block (fun p hp => Param.readBack_of_mem (by omega) hp)
        (fun t ht => TypeExpr.readBack_of_mem_arrow (by omega) ht)
        (fun s hs => Stmt.readBack_of_mem b h.2 s hs ?_) cs s
      have := length_le_block hs
      omega
  | .error _, h, _, _ => nomatch h
termination_by structural e => e

theorem Expr.readBack_of_mem : ∀ (es : List Expr), Expr.areWritable es = true → ∀ e ∈ es,
    ∀ {n : Nat}, e.tokens.length ≤ n → e.isWritable = true ∧ e.ReadBack n
  | a :: es, h, e, he, n, hn => by
      rw [Expr.areWritable, Bool.and_eq_true] at h
      rcases List.mem_cons.1 he with heq | he
      · rw [heq] at hn ⊢
        exact ⟨h.1, a.readBack h.1 hn⟩
      · exact Expr.readBack_of_mem es h.2 e he hn
termination_by structural es => es

/-- A statement that can be written is read back, if the rules may be nested as deep as it has
tokens. -/
theorem Stmt.readBack : ∀ (s : Stmt), s.isWritable = true →
    ∀ {n : Nat}, s.tokens.length ≤ n → s.ReadBack n
  | .declare c x t e s, h, n, hn => by
      rw [Stmt.isWritable, Bool.and_eq_true] at h
      simp only [Stmt.tokens, List.length_cons, List.length_append] at hn
      obtain ⟨n, rfl⟩ : ∃ m, n = m + 1 := ⟨n - 1, by omega⟩
      refine Stmt.readBack_declare (e.readBack h.2 (by omega)) (fun u hu => u.readBack ?_) c x s
      rw [Option.mem_def.1 hu] at hn
      simp only [declaredType, List.length_cons, List.length_append] at hn
      omega
  | .assign x e s, h, n, hn => by
      rw [Stmt.isWritable, Bool.and_eq_true] at h
      simp only [Stmt.tokens, List.length_cons, List.length_append] at hn
      obtain ⟨n, rfl⟩ : ∃ m, n = m + 1 := ⟨n - 1, by omega⟩
      exact Stmt.readBack_assign (e.readBack h.2 (by omega)) x s
  | .ifThen c b s, h, n, hn => by
      rw [Stmt.isWritable, Bool.and_eq_true] at h
      simp only [Stmt.tokens, length_parens, length_braces, Stmt.tokensBlock_eq, List.length_cons,
        List.length_append] at hn
      obtain ⟨n, rfl⟩ : ∃ m, n = m + 2 := ⟨n - 2, by omega⟩
      refine Stmt.readBack_ifThen h.1 (c.readBack h.1 (by omega))
        (fun s hs => Stmt.readBack_of_mem b h.2 s hs ?_) s
      have := length_le_block hs
      omega
  | .ifElse c b d s, h, n, hn => by
      rw [Stmt.isWritable, Bool.and_eq_true, Bool.and_eq_true] at h
      simp only [Stmt.tokens, length_parens, length_braces, Stmt.tokensBlock_eq, List.length_cons,
        List.length_append] at hn
      obtain ⟨n, rfl⟩ : ∃ m, n = m + 2 := ⟨n - 2, by omega⟩
      refine Stmt.readBack_ifElse h.1.1 (c.readBack h.1.1 (by omega))
        (fun s hs => Stmt.readBack_of_mem b h.1.2 s hs ?_)
        (fun s hs => Stmt.readBack_of_mem d h.2 s hs ?_) s
      all_goals have := length_le_block hs
      all_goals omega
  | .while c b s, h, n, hn => by
      rw [Stmt.isWritable, Bool.and_eq_true] at h
      simp only [Stmt.tokens, length_parens, length_braces, Stmt.tokensBlock_eq, List.length_cons,
        List.length_append] at hn
      obtain ⟨n, rfl⟩ : ∃ m, n = m + 2 := ⟨n - 2, by omega⟩
      refine Stmt.readBack_while h.1 (c.readBack h.1 (by omega))
        (fun s hs => Stmt.readBack_of_mem b h.2 s hs ?_) s
      have := length_le_block hs
      omega
  | .return es s, h, n, hn => by
      simp only [Stmt.tokens, Expr.tokensEach_eq, List.length_cons, List.length_append] at hn
      obtain ⟨n, rfl⟩ : ∃ m, n = m + 1 := ⟨n - 1, by omega⟩
      refine Stmt.readBack_return (fun e he => (Expr.readBack_of_mem es h e he ?_).2) s
      have := length_le_commas (List.mem_map_of_mem (f := Expr.tokens) he)
      omega
  | .expr e s, h, n, hn => by
      simp only [Stmt.tokens, List.length_cons, List.length_append] at hn
      obtain ⟨n, rfl⟩ : ∃ m, n = m + 1 := ⟨n - 1, by omega⟩
      exact Stmt.readBack_expr h (e.readBack h (by omega)) s
  | .error _, h, _, _ => nomatch h
termination_by structural s => s

theorem Stmt.readBack_of_mem : ∀ (ss : List Stmt), Stmt.areWritable ss = true → ∀ s ∈ ss,
    ∀ {n : Nat}, s.tokens.length ≤ n → s.isWritable = true ∧ s.ReadBack n
  | t :: ss, h, s, hs, n, hn => by
      rw [Stmt.areWritable, Bool.and_eq_true] at h
      rcases List.mem_cons.1 hs with heq | hs
      · rw [heq] at hn ⊢
        exact ⟨h.1, t.readBack h.1 hn⟩
      · exact Stmt.readBack_of_mem ss h.2 s hs hn
termination_by structural ss => ss

end

/-! ## Programs -/

theorem Function.reads {f : Function} (hf : f.isWritable = true) (hn : f.tokens.length ≤ n)
    (k : List Token) :
    Reads (@Rule.parser n) G.function (f.tokens ++ k) k fun g => g.bare = f.bare := by
  simp only [Function.isWritable, Bool.and_eq_true] at hf
  have htokens : f.tokens ++ k = .keyword .function :: .ident f.name :: .mark .lparen ::
      (commas (f.params.map Param.tokens) ++ .mark .rparen :: (arrow (f.results.map TypeExpr.tokens)
        ++ (braces (f.body.flatMap Stmt.tokens) ++ k))) := by
    simp [Function.tokens, parens]
  simp only [Function.tokens, length_parens, length_braces, Stmt.tokensBlock_eq, List.length_cons,
    List.length_append] at hn
  have hps : ∀ p ∈ f.params, p.ty.ReadBack n := fun p hp => Param.readBack_of_mem (by omega) hp
  have hrs : ∀ t ∈ f.results, t.ReadBack n := fun t ht =>
    TypeExpr.readBack_of_mem_arrow (by omega) ht
  have hb : ∀ s ∈ f.body, s.isWritable = true ∧ s.ReadBack n := fun s hs =>
    Stmt.readBack_of_mem f.body hf.2 s hs (by have := length_le_block hs; omega)
  have hname : ∀ k, Reads (@Rule.parser n) (.right (G.word .function) G.ident)
      (.keyword .function :: .ident f.name :: k) k (· = f.name) := fun k =>
    (reads_word .function _).right (reads_ident f.name k)
  rw [htokens]
  refine .located (((((hname _).seq (reads_params hps _)).seq
    (reads_arrowResults_braces hrs _ k)).seq (reads_block hb k)).weaken ?_)
  rintro ⟨⟨⟨x, ps⟩, rs⟩, b⟩ ⟨⟨⟨rfl, hps⟩, rfl⟩, hb⟩ s
  simp [Function.bare, hps, hb]

theorem Program.reads {p : Program} (hp : p.isWritable = true) (hn : p.tokens.length ≤ n) :
    Reads (@Rule.parser n) G.program p.tokens [] fun q => q.bare = p.bare := by
  simp only [Program.isWritable, List.all_eq_true] at hp
  have hfunction : ∀ f ∈ p.functions, ∀ k, Reads (@Rule.parser n) (.orSkipTokens G.function)
      (f.tokens ++ k) k fun g => g.bare = f.bare := by
    intro f hf k
    obtain ⟨fs, gs, hfs⟩ := List.append_of_mem hf
    rw [Program.tokens, hfs, List.flatMap_append, List.flatMap_cons] at hn
    simp only [List.length_append] at hn
    exact .orSkipTokens (Function.reads (hp f hf) (by omega) k)
  have hend : Refuses (@Rule.parser n) (.orSkipTokens G.function) [] :=
    .orSkipTokens (.located (.seq_left (.seq_left (.seq_left (.right (.token (by simp)))))))
  have hfunctions := Reads.many (.each hfunction (fun f _ => by simp [Function.tokens]) hend)
  rw [List.append_nil] at hfunctions
  exact .map ((hfunctions.left .finish).weaken fun fs h => by rw [Program.bare, h, Program.bare])

/-- A list of tokens that is a program in its written form is parsed to that program. -/
theorem Program.ofTokens_tokens {p : Program} (hp : p.isWritable = true) {tokens : List Lexeme}
    (htokens : tokens.map Lexeme.token = p.tokens) (size : Nat) :
    (Program.ofTokens tokens size).findings = [] ∧
      (Program.ofTokens tokens size).value.bare = p.bare := by
  have hdepth : p.tokens.length ≤ depthFor tokens := by
    rw [← htokens, List.length_map, depthFor]
    omega
  have hread := Program.reads hp hdepth
  have hstart : (Cursor.start tokens size).tokens = p.tokens := htokens
  obtain ⟨q, d, rival, hq, -, hbare⟩ := hread _ hstart
  have hreply : Program.ofTokens tokens size = ⟨q.resolve, []⟩ := by
    unfold Program.ofTokens
    -- the depth is kept from being computed
    generalize depthFor tokens = depth at hq
    simp only [hq]
  rw [hreply]
  exact ⟨rfl, q.bare_resolve.trans hbare⟩

/-- The parser inverts the printer: the text of a program that can be written is parsed without any
report, and to the same program up to spans and captures. -/
theorem Program.ofSource_text {p : Program} (hp : p.isWritable = true) :
    (Program.ofSource p.text).findings = [] ∧ (Program.ofSource p.text).value.bare = p.bare := by
  obtain ⟨htokens, hlex⟩ := Token.lex_spell (Program.spellable hp)
  obtain ⟨hparse, hbare⟩ := Program.ofTokens_tokens hp htokens p.text.utf8ByteSize
  refine ⟨?_, hbare⟩
  calc (Program.ofSource p.text).findings
      = (Token.lex p.text).findings ++ (Program.ofTokens (Token.lex p.text).value
          p.text.utf8ByteSize).findings.map Failure.diagnostic := rfl
    _ = [] ++ [].map Failure.diagnostic :=
        congrArg₂ (fun a b => a ++ b.map Failure.diagnostic) hlex hparse
    _ = [] := rfl

/-- A program with the shapes that are easily mistaken for others: closures of both kinds, a body
that is the name of a type, an empty sequence, and a string with characters to escape. -/
def Program.lookalikes : Program :=
  ⟨[{ name := "main"
      params := [⟨"f", .func [.named .int] [.named .int, .seq (.named .bool)], nowhere⟩]
      results := [.named .string]
      body :=
        [.declare false "g" none
          (.lambda [⟨"x", some (.named .int), nowhere⟩, ⟨"y", none, nowhere⟩] (.name "int" nowhere)
            [] nowhere) nowhere,
         .ifElse (.name "g" nowhere)
          [.expr (.call (.name "f" nowhere) [.seq [] nowhere] nowhere) nowhere]
          [.return [.literal (.str "a\"b\\\n") nowhere] nowhere] nowhere,
         .expr (.block [⟨"x", .named .int, nowhere⟩] [] [.assign "x" (.unary .negate
          (.literal (.int 7) nowhere) nowhere) nowhere] [] nowhere) nowhere]
      span := nowhere }]⟩

theorem Program.ofSource_text_lookalikes :
    Program.lookalikes.isWritable = true ∧ (Program.ofSource Program.lookalikes.text).findings = [] ∧
      (Program.ofSource Program.lookalikes.text).value.bare = Program.lookalikes.bare := by
  have hwritable : Program.lookalikes.isWritable = true := by decide
  exact ⟨hwritable, Program.ofSource_text hwritable⟩

end Rivulet.Source
