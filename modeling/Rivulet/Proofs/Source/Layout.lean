import Rivulet.Proofs.Source.SilentParses
import Rivulet.Proofs.Token.Accounting

set_option autoImplicit false

/-! # Where the parts of a program stand

A tree is laid out on the tokens it was read from. `Spans w c` says that a construct takes the tokens
`w`: its span is their extent, and its parts take stretches of them that follow each other (`Lays`).
Nothing is said about numbers here. That the phrases of the language span their tokens is therefore a
matter of splitting lists of tokens, also for chains of operators, which are regrouped, and for
expressions in parentheses, which are widened.

Only then do the positions of the tokens come in. If tokens ascend, so do the extents of stretches
that follow each other, and the extent of a stretch lies in that of the whole. So every construct of a
silent parse is *located* (`Construct.Located`). -/

namespace Rivulet.Source

open Grammar Wording Phrase

/-! ## Constructs -/

/-- Whatever has a span of its own in a tree. -/
inductive Construct where
  | function (f : Function)
  | param (p : Param)
  | openParam (p : OpenParam)
  | stmt (s : Stmt)
  | expr (e : Expr)

namespace Construct

/-- The span of a construct. -/
def span : Construct → Span
  | .function f => f.span
  | .param p => p.span
  | .openParam p => p.span
  | .stmt s => s.span
  | .expr e => e.span

/-- The constructs that a construct directly consists of, in the order of the text. -/
def parts : Construct → List Construct
  | .function f => f.params.map .param ++ f.body.map .stmt
  | .param _ | .openParam _ => []
  | .stmt (.declare _ _ _ e _) | .stmt (.assign _ e _) | .stmt (.expr e _) => [.expr e]
  | .stmt (.ifThen c b _) | .stmt (.while c b _) => .expr c :: b.map .stmt
  | .stmt (.ifElse c b d _) => .expr c :: (b.map .stmt ++ d.map .stmt)
  | .stmt (.return es _) => es.map .expr
  | .expr (.unary _ e _) => [.expr e]
  | .expr (.binary _ l r _) => [.expr l, .expr r]
  | .expr (.seq es _) => es.map .expr
  | .expr (.index e i _) => [.expr e, .expr i]
  | .expr (.call f as _) => .expr f :: as.map .expr
  | .expr (.lambda ps b _ _) => ps.map .openParam ++ [.expr b]
  | .expr (.block ps _ b _ _) => ps.map .param ++ b.map .stmt
  | .stmt (.error _) | .expr (.literal _ _) | .expr (.name _ _) | .expr (.emptySeq _ _)
  | .expr (.error _) => []

/-- The second construct is the first one, or stands somewhere in it. -/
inductive Contains : Construct → Construct → Prop where
  | here {c : Construct} : Contains c c
  | inside {c d k : Construct} (part : d ∈ c.parts) (rest : Contains d k) : Contains c k

/-- A construct starts where one of the tokens starts and ends where one ends. Its parts stand in it,
in the order of the text and without overlap. -/
structure Located (tokens : List Lexeme) (c : Construct) : Prop where
  starts : ∃ l ∈ tokens, c.span.start = l.span.start
  ends : ∃ l ∈ tokens, c.span.stop = l.span.stop
  nonempty : c.span.start < c.span.stop
  within : ∀ d ∈ c.parts, c.span.start ≤ d.span.start ∧ d.span.stop ≤ c.span.stop
  ascending : c.parts.Pairwise fun d e => d.span.stop ≤ e.span.start

end Construct

/-- A construct stands somewhere in a program. -/
def Program.Contains (p : Program) (c : Construct) : Prop :=
  ∃ f ∈ p.functions, (Construct.function f).Contains c

/-! ## Layouts -/

/-- Constructs that take stretches of the tokens, one behind the other. What `S` says is which tokens
a construct takes. -/
inductive Lays (S : List Lexeme → Construct → Prop) : List Lexeme → List Construct → Prop where
  | nil {w : List Lexeme} : Lays S w []
  | cons {u v w : List Lexeme} {c : Construct} {cs : List Construct} (head : S v c)
      (tail : Lays S w cs) : Lays S (u ++ (v ++ w)) (c :: cs)

/-- A construct takes the tokens: it spans them, and its parts are laid out on them. -/
inductive Spans : List Lexeme → Construct → Prop where
  | mk {w : List Lexeme} {c : Construct} (nonempty : w ≠ []) (span : c.span = extent w)
      (parts : Lays Spans w c.parts) : Spans w c

namespace Lays

variable {S : List Lexeme → Construct → Prop} {u v w : List Lexeme} {c : Construct}
  {cs ds : List Construct}

theorem skip (h : Lays S w cs) (u : List Lexeme) : Lays S (u ++ w) cs := by
  cases h with
  | nil => exact .nil
  | cons head tail =>
      -- the skipped tokens are more of what stands in front of the first construct
      rw [← List.append_assoc]
      exact .cons head tail

theorem skip_one (h : Lays S w cs) (l : Lexeme) : Lays S (l :: w) cs := h.skip [l]

theorem append (h : Lays S v cs) (h' : Lays S w ds) : Lays S (v ++ w) (cs ++ ds) := by
  induction h with
  | nil => exact h'.skip _
  | cons head _ ih =>
      rw [List.append_assoc, List.append_assoc]
      exact .cons head ih

theorem then_skip (h : Lays S w cs) (u : List Lexeme) : Lays S (w ++ u) cs := by
  simpa using h.append (.nil (w := u))

theorem one (h : S w c) : Lays S w [c] := by
  simpa using Lays.cons (u := []) h (.nil (w := []))

theorem of_many {α : Type} {L : Wording α} {f : α → Construct} {as : List α}
    (hL : ∀ ls a, L ls a → Lays S ls [f a]) (h : Many L w as) : Lays S w (as.map f) := by
  induction h with
  | nil => exact .nil
  | cons head _ ih => exact (hL _ _ head).append ih

theorem of_separated {α : Type} {L : Wording α} {f : α → Construct} {as : List α} {b : Bool}
    (hL : ∀ ls a, L ls a → S ls (f a)) (h : Separated L IsComma b w as) :
    Lays S w (as.map f) := by
  induction h with
  | nil => exact .nil
  | last head => exact .one (hL _ _ head)
  | trailing head _ => exact (one (hL _ _ head)).then_skip _
  | cons head _ _ ih => exact (one (hL _ _ head)).append (ih.skip _)

/-- Each of the constructs takes a stretch of the tokens. -/
theorem exists_infix (h : Lays S w cs) (hc : c ∈ cs) : ∃ v, v <:+: w ∧ S v c := by
  induction h with
  | nil => cases hc
  | @cons u v w d cs head tail ih =>
      rcases List.mem_cons.1 hc with rfl | hc
      · exact ⟨v, ⟨u, w, by simp⟩, head⟩
      · obtain ⟨x, hx, hS⟩ := ih hc
        exact ⟨x, hx.trans ⟨u ++ v, [], by simp⟩, hS⟩

end Lays

/-! ## Extents -/

theorem start_extent_append {v : List Lexeme} (hv : v ≠ []) (w : List Lexeme) :
    (extent (v ++ w)).start = (extent v).start := by
  cases v with
  | nil => exact absurd rfl hv
  | cons l v => rfl

theorem stop_extent_append (v : List Lexeme) {w : List Lexeme} (hw : w ≠ []) :
    (extent (v ++ w)).stop = (extent w).stop := by
  cases v with
  | nil => rfl
  | cons l v =>
      cases w with
      | nil => exact absurd rfl hw
      | cons m w =>
          show ((l :: (v ++ m :: w)).getLast _).span.stop = ((m :: w).getLast _).span.stop
          rw [List.getLast_cons (by simp), List.getLast_append_of_ne_nil _ (by simp)]

/-- From the first of two stretches to the second. -/
theorem through_extent {v w : List Lexeme} (hv : v ≠ []) (u : List Lexeme) (hw : w ≠ []) :
    (extent v).through (extent w) = extent (v ++ (u ++ w)) := by
  have hstart := start_extent_append hv (u ++ w)
  have hstop := stop_extent_append (v ++ u) hw
  rw [List.append_assoc] at hstop
  rw [Span.through, ← hstart, ← hstop]

/-! ## Phrases span their tokens -/

namespace Spans

variable {u v w : List Lexeme} {e f : Expr}

theorem ne_nil {c : Construct} (h : Spans w c) : w ≠ [] := by
  cases h with
  | mk hne _ _ => exact hne

theorem span_eq {c : Construct} (h : Spans w c) : c.span = extent w := by
  cases h with
  | mk _ hspan _ => exact hspan

theorem lays {c : Construct} (h : Spans w c) : Lays Spans w c.parts := by
  cases h with
  | mk _ _ hparts => exact hparts

/-- An expression in parentheses is widened, and its parts stay where they are. -/
theorem parens (h : Spans w (.expr e)) (o c : Span) {x : List Lexeme}
    (hx : x = mark .lparen o :: (w ++ [mark .rparen c])) :
    Spans x (.expr (e.withSpan (extent x))) := by
  have hparts : (Construct.expr (e.withSpan (extent x))).parts = (Construct.expr e).parts := by
    cases e <;> rfl
  have hspan : (e.withSpan (extent x)).span = extent x := by
    cases e <;> rfl
  refine ⟨by simp [hx], hspan, ?_⟩
  rw [hparts, hx]
  exact (h.lays.then_skip _).skip_one _

/-- A binary operator between its operands. -/
theorem binary (op : BinaryOp) (hl : Spans v (.expr e)) (u : List Lexeme) (hr : Spans w (.expr f)) :
    Spans (v ++ (u ++ w)) (.expr (.binary op e f (e.span.through f.span))) := by
  have hparts := (Lays.one hl).append ((Lays.one hr).skip u)
  refine ⟨List.append_ne_nil_of_left_ne_nil hl.ne_nil _, ?_, hparts⟩
  show e.span.through f.span = _
  rw [show e.span = extent v from hl.span_eq, show f.span = extent w from hr.span_eq]
  exact through_extent hl.ne_nil u hr.ne_nil

/-- From an expression to a closing token behind it. -/
theorem through_token (h : Spans w (.expr e)) (o : Lexeme) (u : List Lexeme) (l : Lexeme) :
    e.span.through l.span = extent (w ++ o :: (u ++ [l])) := by
  have hextent := through_extent h.ne_nil (o :: u) (List.cons_ne_nil l [])
  rw [← show e.span = extent w from h.span_eq] at hextent
  exact hextent

end Spans

/-- A chain whose operands take the tokens between its operators. -/
inductive Chain.On : List Lexeme → Chain → Prop where
  | operand {w : List Lexeme} {e : Expr} (spans : Spans w (.expr e)) : Chain.On w (.operand e)
  | node {v u w : List Lexeme} {op : BinaryOp} {l r : Chain} (left : Chain.On v l)
      (right : Chain.On w r) : Chain.On (v ++ (u ++ w)) (.node op l r)

namespace Chain.On

variable {v w : List Lexeme} {e : Expr} {c : Chain}

theorem spans (h : Chain.On w c) : Spans w (.expr c.toExpr) := by
  induction h with
  | operand hspans => exact hspans
  | node _ _ ihl ihr => exact ihl.binary _ _ ihr

/-- Growing a chain on the right adds tokens on the right, wherever the new operator goes. -/
theorem extend (h : Chain.On v c) (op : BinaryOp) (u : List Lexeme) (he : Spans w (.expr e)) :
    Chain.On (v ++ (u ++ w)) (c.extend op e) := by
  induction h with
  | operand hspans => exact .node (.operand hspans) (.operand he)
  | @node v' u' w' old l r left right _ ih =>
      rw [Chain.extend]
      split
      -- the new operator goes into the right operand of the old one, or on top of it
      · have hright : Chain.On (v' ++ (u' ++ (w' ++ (u ++ w)))) (.node old l (r.extend op e)) :=
          .node left ih
        rw [List.append_assoc, List.append_assoc]
        exact hright
      · exact .node (.node left right) (.operand he)

end Chain.On

namespace Phrase

theorem IsParam.spans {w : List Lexeme} {p : Param} (h : IsParam w p) : Spans w (.param p) := by
  obtain ⟨-, htokens⟩ := h
  exact ⟨by simp [htokens], rfl, .nil⟩

theorem IsOpenParam.spans {w : List Lexeme} {p : OpenParam} (h : IsOpenParam w p) :
    Spans w (.openParam p) := by
  cases h with
  | untyped => exact ⟨by simp, rfl, .nil⟩
  | typed _ htokens => exact ⟨by simp [htokens], rfl, .nil⟩

theorem IsClosureHead.lays {w : List Lexeme} {ps : List OpenParam} (h : IsClosureHead w ps) :
    Lays Spans w (ps.map .openParam) := by
  cases h with
  | one hparam => exact .one hparam.spans
  | several hparams =>
      exact ((Lays.of_separated (fun _ _ h => IsOpenParam.spans h) hparams).then_skip _).skip_one _

theorem lays_params {w : List Lexeme} {ps : List Param} (h : Separated IsParam IsComma true w ps) :
    Lays Spans w (ps.map .param) :=
  Lays.of_separated (fun _ _ h => IsParam.spans h) h

mutual

theorem IsAtom.spans : ∀ {w : List Lexeme} {e : Expr}, IsAtom w e → Spans w (.expr e)
  | _, _, .int | _, _, .str | _, _, .true | _, _, .false | _, _, .name => ⟨by simp, rfl, .nil⟩
  | _, _, .seq hes htokens => by
      refine ⟨by simp [htokens], rfl, ?_⟩
      rw [htokens]
      exact ((lays_exprs hes).then_skip _).skip_one _
  | _, _, .emptySeq _ htokens => ⟨by simp [htokens], rfl, .nil⟩
  | _, _, .parens he htokens => (IsExpr.spans he).parens _ _ htokens
  | _, _, .lambda hhead hb htokens => by
      refine ⟨by simp [htokens], rfl, ?_⟩
      rw [htokens]
      exact hhead.lays.append ((Lays.one (IsExpr.spans hb)).skip_one _)
  | _, _, .block hps _ hb htokens => by
      refine ⟨by simp [htokens], rfl, ?_⟩
      rw [htokens]
      exact ((lays_params hps).append (((IsBlock.lays hb).skip _).skip_one _)).skip_one _

theorem IsApplied.spans : ∀ {w : List Lexeme} {e : Expr}, IsApplied w e → Spans w (.expr e)
  | _, _, .atom he => IsAtom.spans he
  | _, _, .call hf has => by
      -- the span is put together from that of the callee and the closing token
      have hcallee := IsApplied.spans hf
      refine ⟨by simp, hcallee.through_token (mark .lparen _) _ (mark .rparen _), ?_⟩
      exact (Lays.one hcallee).append (((lays_exprs has).then_skip _).skip_one _)
  | _, _, .index he hi => by
      have hseq := IsApplied.spans he
      refine ⟨by simp, hseq.through_token (mark .lbracket _) _ (mark .rbracket _), ?_⟩
      exact (Lays.one hseq).append (((Lays.one (IsExpr.spans hi)).then_skip _).skip_one _)

theorem IsOperand.spans : ∀ {w : List Lexeme} {e : Expr}, IsOperand w e → Spans w (.expr e)
  | _, _, .applied he => IsApplied.spans he
  | _, _, .unary (s := s) (m := m) _ he => by
      have hoperand := IsOperand.spans he
      have hextent := through_extent (List.cons_ne_nil (mark m s) []) [] hoperand.ne_nil
      refine ⟨by simp, ?_, (Lays.one hoperand).skip_one _⟩
      rw [← hoperand.span_eq] at hextent
      exact hextent

theorem IsChain.on : ∀ {v w : List Lexeme} {rest : List (BinaryOp × Expr)} {c : Chain},
    Chain.On v c → IsChain w rest → Chain.On (v ++ w) (c.grow rest)
  | _, _, _, _, hc, .nil => by simpa using hc
  | _, _, _, _, hc, .cons (m := m) (s := s) _ he hrest => by
      -- whatever shape the chain has so far, it takes the tokens read so far
      have hgrown := fun op => IsChain.on (hc.extend op [mark m s] (IsOperand.spans he)) hrest
      simpa using hgrown _

theorem IsExpr.spans : ∀ {w : List Lexeme} {e : Expr}, IsExpr w e → Spans w (.expr e)
  | _, _, .chain hfirst hrest => by
      rw [climb_eq]
      exact (IsChain.on (.operand (IsOperand.spans hfirst)) hrest).spans

theorem lays_exprs : ∀ {b : Bool} {w : List Lexeme} {es : List Expr},
    Separated IsExpr IsComma b w es → Lays Spans w (es.map .expr)
  | _, _, _, .nil => .nil
  | _, _, _, .last he => .one (IsExpr.spans he)
  | _, _, _, .trailing he _ => (Lays.one (IsExpr.spans he)).then_skip _
  | _, _, _, .cons he _ hes => (Lays.one (IsExpr.spans he)).append ((lays_exprs hes).skip _)

theorem IsSentence.spans : ∀ {w : List Lexeme} {s : Stmt}, IsSentence w s → Spans w (.stmt s)
  | _, _, .declareTyped _ _ he htokens => by
      refine ⟨by simp [htokens], rfl, ?_⟩
      rw [htokens]
      exact ((Lays.one (IsExpr.spans he)).skip_one _).skip (_ :: _ :: _ :: _)
  | _, _, .declare he htokens => by
      refine ⟨by simp [htokens], rfl, ?_⟩
      rw [htokens]
      exact (Lays.one (IsExpr.spans he)).skip [_, _, _]
  | _, _, .declareShort he htokens => by
      refine ⟨by simp [htokens], rfl, ?_⟩
      rw [htokens]
      exact (Lays.one (IsExpr.spans he)).skip [_, _]
  | _, _, .assign he htokens => by
      refine ⟨by simp [htokens], rfl, ?_⟩
      rw [htokens]
      exact (Lays.one (IsExpr.spans he)).skip [_, _]
  | _, _, .ifThen he hb htokens => by
      refine ⟨by simp [htokens], rfl, ?_⟩
      rw [htokens]
      exact ((Lays.one (IsExpr.spans he)).append (IsBlock.lays hb)).skip_one _
  | _, _, .ifElse (z := z) he hb hd htokens => by
      refine ⟨by simp [htokens], rfl, ?_⟩
      rw [htokens]
      have hblocks := (IsBlock.lays hb).append ((IsBlock.lays hd).skip_one (word .else z))
      exact ((Lays.one (IsExpr.spans he)).append hblocks).skip_one _
  | _, _, .while he hb htokens => by
      refine ⟨by simp [htokens], rfl, ?_⟩
      rw [htokens]
      exact ((Lays.one (IsExpr.spans he)).append (IsBlock.lays hb)).skip_one _
  | _, _, .return hes htokens => by
      refine ⟨by simp [htokens], rfl, ?_⟩
      rw [htokens]
      exact (lays_exprs hes).skip_one _
  | _, _, .expr he => ⟨he.ne_nil, rfl, .one (IsExpr.spans he)⟩

theorem lays_stmts : ∀ {w : List Lexeme} {b : List Stmt}, Many IsStmt w b →
    Lays Spans w (b.map .stmt)
  | _, _, .nil => .nil
  | _, _, .cons hs hb => (IsStmt.lays hs).append (lays_stmts hb)

theorem IsStmt.lays : ∀ {w : List Lexeme} {s : Stmt}, IsStmt w s → Lays Spans w [.stmt s]
  | _, _, .plain hs => .one (IsSentence.spans hs)
  | _, _, .ended hs => (Lays.one (IsSentence.spans hs)).then_skip _

theorem IsBlock.lays : ∀ {w : List Lexeme} {b : List Stmt}, IsBlock w b →
    Lays Spans w (b.map .stmt)
  | _, _, .braces hb => ((lays_stmts hb).then_skip _).skip_one _

end

theorem IsFunction.spans {w : List Lexeme} {f : Function} (h : IsFunction w f) :
    Spans w (.function f) := by
  obtain ⟨hps, -, hb, htokens⟩ := h
  refine ⟨by simp [htokens], rfl, ?_⟩
  rw [htokens]
  exact ((lays_params hps).append (((IsBlock.lays hb).skip _).skip_one _)).skip [_, _, _]

/-- The functions of a program are laid out on its tokens. -/
theorem IsProgram.lays {w : List Lexeme} {p : Program} (h : IsProgram w p) :
    Lays Spans w (p.functions.map .function) :=
  Lays.of_many (fun _ _ hf => .one (IsFunction.spans hf)) h

end Phrase

/-! ## Captures do not matter -/

/-- The construct with captures written into its closures. -/
def Construct.resolve (visible : List String) : Construct → Construct
  | .function f => .function (f.resolveAmong (f.params.map Param.name))
  | .param p => .param p
  | .openParam p => .openParam p
  | .stmt s => .stmt (s.resolve visible)
  | .expr e => .expr (e.resolve visible)

namespace Construct

/-- The second construct is the first one with captures written into its closures. -/
def Resolves (c d : Construct) : Prop := ∃ visible, d = c.resolve visible

theorem span_resolve (visible : List String) (c : Construct) : (c.resolve visible).span = c.span := by
  cases c with
  | function f | param p | openParam p => rfl
  | stmt s => cases s <;> rfl
  | expr e => cases e <;> rfl

theorem resolves_exprs (visible : List String) (es : List Expr) :
    List.Forall₂ Resolves (es.map .expr) ((Expr.resolveList visible es).map .expr) := by
  induction es with
  | nil => exact .nil
  | cons e es ih => exact .cons ⟨visible, rfl⟩ ih

theorem resolves_block (visible : List String) (b : List Stmt) :
    List.Forall₂ Resolves (b.map .stmt) ((Stmt.resolveBlock visible b).map .stmt) := by
  induction b generalizing visible with
  | nil => exact .nil
  | cons s ss ih => exact .cons ⟨visible, rfl⟩ (ih (s.declared ++ visible))

theorem resolves_params (ps : List Param) :
    List.Forall₂ Resolves (ps.map .param) (ps.map .param) :=
  List.forall₂_same.2 fun c hc => by
    obtain ⟨p, -, rfl⟩ := List.mem_map.1 hc
    exact ⟨[], rfl⟩

theorem resolves_openParams (ps : List OpenParam) :
    List.Forall₂ Resolves (ps.map .openParam) (ps.map .openParam) :=
  List.forall₂_same.2 fun c hc => by
    obtain ⟨p, -, rfl⟩ := List.mem_map.1 hc
    exact ⟨[], rfl⟩

/-- The parts of a construct are resolved one by one. -/
theorem resolves_parts (visible : List String) (c : Construct) :
    List.Forall₂ Resolves c.parts (c.resolve visible).parts := by
  cases c with
  -- a block makes more names visible from statement to statement, and so do parameters
  | function f => exact List.rel_append (resolves_params f.params) (resolves_block _ f.body)
  | param p | openParam p => exact .nil
  | stmt s =>
      cases s with
      | declare _ _ _ e _ | assign _ e _ | expr e _ => exact resolves_exprs visible [e]
      | ifThen c b _ | «while» c b _ => exact .cons ⟨visible, rfl⟩ (resolves_block visible b)
      | ifElse c b d _ =>
          exact .cons ⟨visible, rfl⟩
            (List.rel_append (resolves_block visible b) (resolves_block visible d))
      | «return» es _ => exact resolves_exprs visible es
      | error _ => exact .nil
  | expr e =>
      cases e with
      | literal _ _ | name _ _ | emptySeq _ _ | error _ => exact .nil
      | unary _ e _ => exact resolves_exprs visible [e]
      | binary _ l r _ => exact resolves_exprs visible [l, r]
      | seq es _ => exact resolves_exprs visible es
      | index e i _ => exact resolves_exprs visible [e, i]
      | call f as _ => exact .cons ⟨visible, rfl⟩ (resolves_exprs visible as)
      | lambda ps b _ _ => exact List.rel_append (resolves_openParams ps) (resolves_exprs _ [b])
      | block ps _ b _ _ => exact List.rel_append (resolves_params ps) (resolves_block _ b)

end Construct

open Construct (Resolves span_resolve resolves_parts)

mutual

/-- Resolving captures moves nothing. -/
theorem Spans.resolve : ∀ {w : List Lexeme} {c : Construct}, Spans w c →
    ∀ visible, Spans w (c.resolve visible)
  | _, c, .mk hne hspan hparts, visible =>
      .mk hne ((span_resolve visible c).trans hspan) (hparts.resolves (resolves_parts visible c))

theorem Lays.resolves : ∀ {w : List Lexeme} {cs ds : List Construct}, Lays Spans w cs →
    List.Forall₂ Resolves cs ds → Lays Spans w ds
  | _, _, _, .nil, .nil => .nil
  | _, _, _, .cons head tail, .cons ⟨visible, heq⟩ rest =>
      .cons (heq ▸ head.resolve visible) (tail.resolves rest)

end

theorem Phrase.IsProgram.lays_resolve {w : List Lexeme} {p : Program} (h : IsProgram w p) :
    Lays Spans w (p.resolve.functions.map .function) := by
  refine h.lays.resolves ?_
  rw [Program.resolve_eq_resolveAmong, Program.resolveAmong, List.map_map,
    List.forall₂_map_left_iff, List.forall₂_map_right_iff]
  exact List.forall₂_same.2 fun f _ => ⟨[], rfl⟩

/-! ## Positions -/

/-- Tokens that ascend and are not empty. -/
structure Ascends (w : List Lexeme) : Prop where
  ordered : w.Pairwise fun l m => l.span.stop ≤ m.span.start
  nonempty : ∀ l ∈ w, l.span.start < l.span.stop

theorem exists_start_extent {w : List Lexeme} (hw : w ≠ []) :
    ∃ l ∈ w, (extent w).start = l.span.start := by
  obtain ⟨l, w, rfl⟩ := List.exists_cons_of_ne_nil hw
  exact ⟨l, List.mem_cons_self, rfl⟩

theorem exists_stop_extent {w : List Lexeme} (hw : w ≠ []) :
    ∃ l ∈ w, (extent w).stop = l.span.stop := by
  obtain ⟨l, w, rfl⟩ := List.exists_cons_of_ne_nil hw
  exact ⟨_, List.getLast_mem _, rfl⟩

namespace Ascends

variable {v w : List Lexeme}

theorem of_infix (h : Ascends w) (hv : v <:+: w) : Ascends v :=
  ⟨h.ordered.sublist hv.sublist, fun l hl => h.nonempty l (hv.subset hl)⟩

theorem start_le (h : Ascends w) {l : Lexeme} (hl : l ∈ w) : (extent w).start ≤ l.span.start := by
  obtain ⟨m, w, rfl⟩ := List.exists_cons_of_ne_nil (List.ne_nil_of_mem hl)
  rcases List.mem_cons.1 hl with rfl | hl
  · exact Nat.le_refl _
  · have hm : m.span.start < m.span.stop := h.nonempty m List.mem_cons_self
    have hle : m.span.stop ≤ l.span.start := List.rel_of_pairwise_cons h.ordered hl
    exact Nat.le_of_lt (Nat.lt_of_lt_of_le hm hle)

theorem le_stop (h : Ascends w) {l : Lexeme} (hl : l ∈ w) : l.span.stop ≤ (extent w).stop := by
  -- the extent ends with the last token
  obtain rfl | ⟨w, m, rfl⟩ := List.eq_nil_or_concat w
  · cases hl
  rw [List.concat_eq_append] at h hl ⊢
  rw [stop_extent_append w (List.cons_ne_nil m [])]
  rcases List.mem_append.1 hl with hl | hl
  · have hm : m.span.start < m.span.stop := h.nonempty m (by simp)
    have hle : l.span.stop ≤ m.span.start :=
      (List.pairwise_append.1 h.ordered).2.2 l hl m List.mem_cons_self
    exact Nat.le_of_lt (Nat.lt_of_le_of_lt hle hm)
  · rw [List.mem_singleton.1 hl]
    exact Nat.le_refl _

/-- The extent of a stretch lies in the extent of the whole. -/
theorem extent_infix (h : Ascends w) (hv : v <:+: w) (hne : v ≠ []) :
    (extent w).start ≤ (extent v).start ∧ (extent v).stop ≤ (extent w).stop := by
  obtain ⟨l, hl, hstart⟩ := exists_start_extent hne
  obtain ⟨m, hm, hstop⟩ := exists_stop_extent hne
  rw [hstart, hstop]
  exact ⟨h.start_le (hv.subset hl), h.le_stop (hv.subset hm)⟩

theorem extent_lt (h : Ascends w) (hne : w ≠ []) : (extent w).start < (extent w).stop := by
  obtain ⟨l, hl, hstart⟩ := exists_start_extent hne
  rw [hstart]
  exact Nat.lt_of_lt_of_le (h.nonempty l hl) (h.le_stop hl)

/-- A stretch ends before the next one starts. -/
theorem extent_le (h : Ascends (v ++ w)) {x : List Lexeme} (hx : x <:+: w) (hv : v ≠ [])
    (hne : x ≠ []) : (extent v).stop ≤ (extent x).start := by
  obtain ⟨l, hl, hstop⟩ := exists_stop_extent hv
  obtain ⟨m, hm, hstart⟩ := exists_start_extent hne
  rw [hstop, hstart]
  exact (List.pairwise_append.1 h.ordered).2.2 l hl m (hx.subset hm)

end Ascends

/-- Constructs that are laid out on ascending tokens ascend. -/
theorem Lays.ascending {w : List Lexeme} {cs : List Construct} (h : Lays Spans w cs)
    (hw : Ascends w) : cs.Pairwise fun c d => c.span.stop ≤ d.span.start := by
  induction h with
  | nil => exact .nil
  | @cons u v w c cs head tail ih =>
      have hvw : Ascends (v ++ w) := hw.of_infix ⟨u, [], by simp⟩
      refine List.pairwise_cons.2 ⟨fun d hd => ?_, ih (hvw.of_infix ⟨v, [], by simp⟩)⟩
      obtain ⟨x, hx, hspans⟩ := tail.exists_infix hd
      rw [head.span_eq, hspans.span_eq]
      exact hvw.extent_le hx head.ne_nil hspans.ne_nil

theorem Spans.located {w : List Lexeme} {c : Construct} (h : Spans w c) (hw : Ascends w) :
    c.Located w where
  starts := by
    rw [h.span_eq]
    exact exists_start_extent h.ne_nil
  ends := by
    rw [h.span_eq]
    exact exists_stop_extent h.ne_nil
  nonempty := by
    rw [h.span_eq]
    exact hw.extent_lt h.ne_nil
  within d hd := by
    obtain ⟨v, hv, hspans⟩ := h.lays.exists_infix hd
    rw [h.span_eq, hspans.span_eq]
    exact hw.extent_infix hv hspans.ne_nil
  ascending := h.lays.ascending hw

/-- Whatever stands in a construct takes a stretch of its tokens. -/
theorem Spans.exists_infix {w : List Lexeme} {c d : Construct} (h : Spans w c) (hd : c.Contains d) :
    ∃ v, v <:+: w ∧ Spans v d := by
  induction hd generalizing w with
  | here => exact ⟨w, List.infix_rfl, h⟩
  | inside part _ ih =>
      obtain ⟨v, hv, hspans⟩ := h.lays.exists_infix part
      obtain ⟨x, hx, hd⟩ := ih hspans
      exact ⟨x, hx.trans hv, hd⟩

theorem Construct.Located.mono {v w : List Lexeme} {c : Construct} (h : c.Located v) (hv : v ⊆ w) :
    c.Located w :=
  { h with
    starts := h.starts.imp fun _ hl => ⟨hv hl.1, hl.2⟩
    ends := h.ends.imp fun _ hl => ⟨hv hl.1, hl.2⟩ }

/-! ## The tokens of a text -/

theorem ascends_lex (source : String) : Ascends (Token.lex source).value := by
  obtain ⟨hpairwise, hbounds⟩ := Token.pieces_ascend 0 source.toList
  refine ⟨List.Pairwise.filterMap _ ?_ hpairwise, fun l hl => ?_⟩
  · rintro ⟨x, s⟩ ⟨y, t⟩ hst l hl m hm
    cases x <;> cases hl
    cases y <;> cases hm
    exact hst
  · exact (hbounds _ (Token.mem_value_iff.1 hl)).2

/-- Of two fronts of a text, the one with fewer bytes is a front of the other. -/
theorem isPrefix_of_byteLength_le {xs ys cs : List Char} (hx : xs <+: cs) (hy : ys <+: cs)
    (hle : Token.byteLength xs ≤ Token.byteLength ys) : xs <+: ys := by
  rcases List.prefix_or_prefix_of_prefix hx hy with h | ⟨zs, rfl⟩
  · exact h
  · have hzs : zs = [] := by
      by_contra hne
      have hpos := Token.byteLength_pos hne
      rw [Token.byteLength_append] at hle
      omega
    rw [hzs, List.append_nil]

/-- The span of a located construct lies in the text, between two characters on both sides. -/
theorem Construct.Located.covers {source : String} {c : Construct}
    (h : c.Located (Token.lex source).value) :
    ∃ before text after, Token.Covers source.toList c.span before text after := by
  obtain ⟨l, hl, hstart⟩ := h.starts
  obtain ⟨m, hm, hstop⟩ := h.ends
  obtain ⟨u, k, y, -, ⟨hsource, hlspan⟩, -⟩ :=
    Token.covers_of_mem_pieces (Token.mem_value_iff.1 hl)
  obtain ⟨v, d, x, -, ⟨hsource', hmspan⟩, -⟩ :=
    Token.covers_of_mem_pieces (Token.mem_value_iff.1 hm)
  simp only at hlspan hmspan
  rw [hlspan] at hstart
  rw [hmspan] at hstop
  -- the text in front of the construct is a front of the text up to its end
  have hfront : u <+: v ++ (Cut.front d x).text := by
    have hu : u <+: source.toList := by
      rw [hsource, List.append_assoc]
      exact List.prefix_append _ _
    have hv : v ++ (Cut.front d x).text <+: source.toList := by
      rw [hsource']
      exact List.prefix_append _ _
    have hlt := h.nonempty
    rw [hstart, hstop] at hlt
    exact isPrefix_of_byteLength_le hu hv (Nat.le_of_lt hlt)
  obtain ⟨text, htext⟩ := hfront
  refine ⟨u, text, (Cut.front d x).rest, ?_, ?_⟩
  · rw [htext]
    exact hsource'
  · rw [htext]
    exact congrArg₂ Span.mk hstart hstop

/-- Every construct of a silent parse is located, and the functions follow each other. -/
theorem Program.located_of_silent {source : String} (h : (Program.ofSource source).findings = []) :
    (∀ c, (Program.ofSource source).value.Contains c → c.Located (Token.lex source).value) ∧
      (Program.ofSource source).value.functions.Pairwise fun f g => f.span.stop ≤ g.span.start := by
  obtain ⟨-, hparse⟩ := Program.findings_ofSource_eq_nil_iff.1 h
  obtain ⟨p, hp, hvalue⟩ := (Program.isParseOf_of_silent hparse).derived
  have hlays := hp.lays_resolve
  rw [← hvalue] at hlays
  have htokens := ascends_lex source
  refine ⟨?_, ?_⟩
  · rintro c ⟨f, hf, hc⟩
    -- the function takes a stretch of all tokens, and the construct takes a stretch of that
    obtain ⟨v, hv, hspans⟩ := hlays.exists_infix (List.mem_map_of_mem hf)
    obtain ⟨x, hx, hc⟩ := hspans.exists_infix hc
    have hxv := hx.trans hv
    exact (hc.located (htokens.of_infix hxv)).mono hxv.subset
  · exact List.pairwise_map.1 (hlays.ascending htokens)

end Rivulet.Source
