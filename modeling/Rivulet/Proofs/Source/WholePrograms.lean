import Rivulet.Proofs.Grammar.CleanReplies
import Rivulet.Proofs.Source.CaptureWalk
import Rivulet.Proofs.Source.Grouping
import Rivulet.Source.Parser

set_option autoImplicit false

/-! # Programs that are parsed without errors are whole

The trees of a text hold placeholders where the parser has skipped something, but then there is a
report about it. The grammar is walked part by part, given that the rules it refers to read whole
trees; the depth of rules is then an induction. -/

namespace Rivulet.Source

open Grammar Gram

/-! ## Making trees of whole trees -/

theorem Expr.wholeList_iff {es : List Expr} : Expr.WholeList es ↔ ∀ e ∈ es, e.Whole := by
  induction es with
  | nil => simp [Expr.WholeList]
  | cons e es ih => simp [Expr.WholeList, ih]

theorem Stmt.wholeBlock_iff {ss : List Stmt} : Stmt.WholeBlock ss ↔ ∀ s ∈ ss, s.Whole := by
  induction ss with
  | nil => simp [Stmt.WholeBlock]
  | cons s ss ih => simp [Stmt.WholeBlock, ih]

theorem Expr.Whole.withSpan {e : Expr} (h : e.Whole) (s : Span) : (e.withSpan s).Whole := by
  cases e <;> exact h

theorem climb_whole {first : Expr} {rest : List (BinaryOp × Expr)} (hfirst : first.Whole)
    (hrest : ∀ p ∈ rest, p.2.Whole) : (climb first rest).Whole :=
  climb_induction (fun _ _ _ _ hl hr => ⟨hl, hr⟩) hfirst hrest

/-- What may follow an atom is whole. -/
def G.Suffix.Whole : G.Suffix → Prop
  | .call as _ => ∀ e ∈ as, e.Whole
  | .index i _ => i.Whole

theorem G.Suffix.Whole.foldl {ss : List G.Suffix} (hss : ∀ x ∈ ss, x.Whole) :
    ∀ {e : Expr}, e.Whole → (ss.foldl G.Suffix.apply e).Whole := by
  induction ss with
  | nil => exact fun he => he
  | cons x ss ih =>
      intro e he
      refine ih (fun y hy => hss y (List.mem_cons_of_mem _ hy)) ?_
      have hx := hss x (by simp)
      cases x with
      | call as s => exact ⟨he, Expr.wholeList_iff.2 hx⟩
      | index i s => exact ⟨he, hx⟩

theorem applyUnary_whole {e : Expr} (he : e.Whole) :
    ∀ ops : List (UnaryOp × Span), (ops.foldr G.applyUnary e).Whole
  | [] => he
  | _ :: ops => applyUnary_whole he ops

/-! ## The grammar -/

section Grammar

variable {rules : {α : Type} → Rule α → Parser α}

theorem yields_block (hstmt : Yields rules (.rule .stmt) Stmt.Whole) :
    Yields rules G.block Stmt.WholeBlock := by
  refine .orSkipBrackets (.between ?_) _ _
  exact (Yields.many hstmt).weaken fun _ h => Stmt.wholeBlock_iff.2 h

theorem yields_suffix (hexpr : Yields rules (.rule .expr) Expr.Whole) :
    Yields rules G.suffix G.Suffix.Whole := by
  refine .orElse (.located ?_) (.located ?_)
  · exact (Yields.between (.sepBy hexpr _ _)).weaken fun _ h _ => h
  · exact (Yields.between hexpr).weaken fun _ h _ => h

theorem yields_program (hstmt : Yields rules (.rule .stmt) Stmt.Whole) :
    Yields rules G.program Program.Whole := by
  refine .map (.left ?_)
  refine (Yields.many (P := fun f : Function => Stmt.WholeBlock f.body)
    (.orSkipTokens (.located ?_))).weaken fun _ h => h
  exact (Yields.seq (.any _) (yields_block hstmt)).weaken fun _ h _ => h.2

variable (hexpr : Yields rules (.rule .expr) Expr.Whole)
  (hstmt : Yields rules (.rule .stmt) Stmt.Whole)

include hexpr hstmt

theorem yields_atom : Yields rules G.atom Expr.Whole := by
  refine .orElse (.orElse (.orElse (.orElse (.orElse (.orElse ?_ ?_) ?_) ?_) ?_) ?_) ?_
  · -- a closure with a block
    refine .located ?_
    exact (Yields.seq (.any _) (yields_block hstmt)).weaken fun _ h _ => h.2
  · -- a closure with an expression
    refine .located ?_
    exact (Yields.seq (.any _) hexpr).weaken fun _ h _ => h.2
  · exact .located ((Yields.any _).weaken fun _ _ _ => trivial)
  · exact .located ((Yields.any _).weaken fun _ _ _ => trivial)
  · exact .located ((Yields.any _).weaken fun _ _ _ => trivial)
  · -- a sequence
    refine .orSkipBrackets (.located ?_) _ _
    exact (Yields.between (.sepBy hexpr _ _)).weaken fun _ h _ => Expr.wholeList_iff.2 h
  · -- an expression in parentheses
    refine .orSkipBrackets (.located ?_) _ _
    exact (Yields.between hexpr).weaken fun _ h s => h.withSpan s

theorem yields_operand : Yields rules G.operand Expr.Whole := by
  refine .map ?_
  refine (Yields.seq (.any _) (Q := Expr.Whole) ?_).weaken fun p h => applyUnary_whole h.2 p.1
  refine .map ?_
  exact (Yields.seq (yields_atom hexpr hstmt) (.many (yields_suffix hexpr))).weaken
    fun p h => G.Suffix.Whole.foldl h.2 h.1

theorem yields_expr : Yields rules G.expr Expr.Whole := by
  refine .map ?_
  have hoperand := yields_operand hexpr hstmt
  exact (Yields.seq hoperand (.many (.seq (.any _) hoperand))).weaken
    fun p h => climb_whole h.1 fun q hq => (h.2 q hq).2

theorem yields_stmt : Yields rules G.stmt Stmt.Whole := by
  have hblock := yields_block hstmt
  refine .left (.located ?_)
  refine .orElse (.orElse (.orElse (.orElse (.orElse (.orElse ?_ ?_) ?_) ?_) ?_) ?_) ?_
  · -- the two forms of declarations
    refine .map ?_
    exact (Yields.seq (.any _) hexpr).weaken fun _ h _ => h.2
  · refine .map ?_
    exact (Yields.seq (.any _) hexpr).weaken fun _ h _ => h.2
  · refine .map ?_
    exact (Yields.seq (.any _) hexpr).weaken fun _ h _ => h.2
  · -- a condition, with or without an alternative
    refine .map ?_
    refine (Yields.seq (Yields.seq (.right hexpr) hblock) (.optional (.right hblock))).weaken ?_
    rintro ⟨⟨c, b⟩, d⟩ ⟨⟨hc, hb⟩, hd⟩ s
    cases d with
    | none => exact ⟨hc, hb⟩
    | some d => exact ⟨hc, hb, hd d rfl⟩
  · refine .map ?_
    exact (Yields.seq (.right hexpr) hblock).weaken fun _ h _ => h
  · refine .map ?_
    exact (Yields.right (.sepBy hexpr _ _)).weaken fun _ h _ => Expr.wholeList_iff.2 h
  · refine .map ?_
    exact hexpr.weaken fun _ h _ => h

end Grammar

/-! ## Texts -/

/-- The trees that a rule reads are whole. -/
def Rule.Whole : {α : Type} → Rule α → α → Prop
  | _, .type, _ => True
  | _, .expr, e => e.Whole
  | _, .stmt, s => s.Whole

theorem Rule.parser_whole : ∀ (depth : Nat) {α : Type} (r : Rule α) (c : Cursor) (a : α) (d : Cursor)
    (rival : Option Failure), Rule.parser depth r c = ⟨[], .ok a d rival⟩ → r.Whole a
  | 0, _, r, c, a, d, rival, h => by cases h
  | depth + 1, _, r, c, a, d, rival, h => by
      have hexpr : Yields (Rule.parser depth) (.rule .expr) Expr.Whole :=
        fun c a d rival h => Rule.parser_whole depth .expr c a d rival h
      have hstmt : Yields (Rule.parser depth) (.rule .stmt) Stmt.Whole :=
        fun c a d rival h => Rule.parser_whole depth .stmt c a d rival h
      cases r with
      | type => trivial
      | expr => exact yields_expr hexpr hstmt c a d rival h
      | stmt => exact yields_stmt hexpr hstmt c a d rival h

theorem Program.exists_whole_of_ofTokens {tokens : List Lexeme} {size : Nat}
    (h : (Program.ofTokens tokens size).findings = []) :
    ∃ p : Program, p.Whole ∧ (Program.ofTokens tokens size).value = p.resolve := by
  have hrules : ∀ {α : Type} (r : Rule α), Yields (Rule.parser (depthFor tokens)) (.rule r) r.Whole :=
    fun r c a d rival => Rule.parser_whole _ r c a d rival
  unfold Program.ofTokens at h ⊢
  dsimp only at h ⊢
  generalize hreply : G.program.run (Rule.parser (depthFor tokens)) (Cursor.start tokens size) = reply
    at h ⊢
  obtain ⟨errors, result⟩ := reply
  cases result with
  | ok p d rival =>
      obtain rfl : errors = [] := h
      exact ⟨p, yields_program (hrules .stmt) _ p d rival hreply, rfl⟩
  | fail e => simp at h

/-- **A text about which the parser has nothing to report is a whole program.** -/
theorem Program.exists_whole_of_ofSource {source : String}
    (h : (Program.ofSource source).findings = []) :
    ∃ p : Program, p.Whole ∧ (Program.ofSource source).value = p.resolve :=
  Program.exists_whole_of_ofTokens (Program.findings_ofSource_eq_nil_iff.1 h).2

end Rivulet.Source
