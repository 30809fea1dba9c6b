import Rivulet.Proofs.Check.Soundness
import Rivulet.Proofs.Source.Layout
import Mathlib.Data.String.Basic

set_option autoImplicit false

/-! # Where reports point

The checker makes up no spans. Whatever it reports, it reports at the span of a construct of the tree
that it is given, and so are the labels on related places. `Checked.Points` says this of one report,
together with what is known of its value: a checked expression has the span of the expression it was
checked from. There is one lemma for each rule, and one walk over the tree.

With the layout of silent parses this locates everything that is said about a program
(`Source.Program.soundly_located`). -/

namespace Rivulet

open Source (Construct)

/-- Every construct in a construct has a span as described. -/
def Source.Construct.Within (S : Span → Prop) (c : Construct) : Prop :=
  ∀ d, c.Contains d → S d.span

namespace Source.Construct.Within

variable {S : Span → Prop} {c d : Construct}

theorem span (h : c.Within S) : S c.span := h c .here

theorem part (h : c.Within S) (hd : d ∈ c.parts) : d.Within S := fun k hk => h k (.inside hd hk)

end Source.Construct.Within

namespace Check

open Typing (Finding Fault expect)

/-! ## Reports that point at described spans -/

/-- What is found is found at spans as described by `S`, and the value is as described by `Q`. -/
def Checked.Points {α : Type} (S : Span → Prop) (r : Checked α) (Q : α → Prop) : Prop :=
  (∀ f ∈ r.findings, S f.span ∧ ∀ o ∈ f.others, S o.1) ∧ Q r.value

namespace Checked.Points

variable {α β : Type} {S : Span → Prop} {r : Checked α} {f : α → Checked β} {P : α → Prop}
  {Q : β → Prop}

theorem pure {a : α} (h : P a) : Points S (pure a) P := ⟨nofun, h⟩

theorem bind (hr : Points S r P) (hf : ∀ a, P a → Points S (f a) Q) : Points S (r >>= f) Q :=
  ⟨List.forall_mem_append.2 ⟨hr.1, (hf _ hr.2).1⟩, (hf _ hr.2).2⟩

theorem reject {fault : Fault Ty} {span : Span} (h : S span) :
    Points S (reject fault span) fun _ => True :=
  ⟨List.forall_mem_singleton.2 ⟨h, nofun⟩, trivial⟩

end Checked.Points

open Checked (Points)

/-! ## The rules -/

section Rules

variable {S : Span → Prop} {span : Span}

theorem points_expect {place : Typing.Place} {expected found : Ty} (h : S span) :
    Points S (expect place expected found span) fun _ => True := by
  unfold expect
  split
  · exact .pure trivial
  · exact .bind (.reject h) fun _ _ => .pure trivial

theorem points_name (env : Env) (x : String) (h : S span) :
    Points S (name env x span) fun t => t.span = span := by
  unfold name
  split
  · exact .pure rfl
  · exact .pure rfl
  · split
    · exact .pure rfl
    · exact .bind (.reject h) fun _ _ => .pure rfl
  · exact .bind (.reject h) fun _ _ => .pure rfl

theorem points_untypedEmpty (hint : Hint) (h : S span) :
    Points S (untypedEmpty hint span) fun t => t.span = span := by
  unfold untypedEmpty
  split
  · exact .pure rfl
  · exact .pure rfl
  · exact .bind (.reject h) fun _ _ => .pure rfl

theorem points_unary (op : UnaryOp) {e : Typed.Expr} (he : S e.span) :
    Points S (unary op e span) fun t => t.span = span := by
  unfold unary
  split
  · exact .pure rfl
  · split
    · exact .pure rfl
    · exact .bind (.reject he) fun _ _ => .pure rfl

/-- A fault of one operand points at both of them. -/
theorem points_binary (op : BinaryOp) {l r : Typed.Expr} (hl : S l.span) (hr : S r.span)
    (h : S span) : Points S (binary op l r span) fun t => t.span = span := by
  unfold binary
  split
  · exact .pure rfl
  · rename_i f _
    refine .bind (P := fun _ => True) ⟨List.forall_mem_singleton.2 ?_, trivial⟩ fun _ _ => .pure rfl
    -- the operand that is not to blame gets the label
    cases f.blame with
    | left => exact ⟨hl, List.forall_mem_singleton.2 hr⟩
    | right => exact ⟨hr, List.forall_mem_singleton.2 hl⟩
    | both => exact ⟨h, nofun⟩

theorem points_sameElements (first : Ty) {es : List Typed.Expr} (hes : ∀ e ∈ es, S e.span) :
    Points S (sameElements first es) fun _ => True := by
  induction es with
  | nil => exact .pure trivial
  | cons e es ih =>
      obtain ⟨he, hes⟩ := List.forall_mem_cons.1 hes
      unfold sameElements
      split
      · exact ih hes
      · exact .bind (.reject he) fun _ _ => .bind (ih hes) fun _ _ => .pure trivial

theorem points_seq (first : Typed.Expr) {rest : List Typed.Expr} (hrest : ∀ e ∈ rest, S e.span) :
    Points S (seq first rest span) fun t => t.span = span := by
  unfold seq
  split
  · exact .pure rfl
  · exact .bind (points_sameElements first.ty hrest) fun _ _ => .pure rfl

theorem points_index {s i : Typed.Expr} (hs : S s.span) (hi : S i.span) :
    Points S (index s i span) fun t => t.span = span := by
  unfold index
  split
  · exact .pure rfl
  · split
    · exact .bind (points_expect hi) fun _ _ => .pure rfl
    · exact .bind (.reject hs) fun _ _ => .pure rfl

theorem points_signature? {callee : Typed.Expr} (h : S callee.span) :
    Points S (signature? callee) fun _ => True := by
  unfold signature?
  split
  · exact .pure trivial
  · exact .pure trivial
  · exact .bind (.reject h) fun _ _ => .pure trivial

theorem points_arguments : ∀ (n : Nat) {as : List Typed.Expr} (ps : List Ty),
    (∀ a ∈ as, S a.span) → Points S (arguments n as ps) fun _ => True
  | _, [], _, _ => .pure trivial
  | _, _ :: _, [], _ => .pure trivial
  | n, a :: as, p :: ps, has => by
      obtain ⟨ha, has⟩ := List.forall_mem_cons.1 has
      exact .bind (points_expect ha) fun _ _ => .bind (points_arguments (n + 1) ps has) fun _ _ =>
        .pure trivial

theorem points_call (callee : Typed.Expr) (sig : Option Signature) {args : List Typed.Expr}
    (hargs : ∀ a ∈ args, S a.span) (h : S span) :
    Points S (call callee sig args span) fun t => t.span = span := by
  unfold call
  split
  · exact .pure rfl
  · split
    · exact .bind (.reject h) fun _ _ => .pure rfl
    · exact .bind (points_arguments 1 _ hargs) fun _ _ => .pure rfl

theorem points_specialType (b : Builtin) {args : List Typed.Expr} (hargs : ∀ a ∈ args, S a.span)
    (h : S span) : Points S (specialType b args span) fun _ => True := by
  unfold specialType
  split
  · split
    · exact .pure trivial
    · split
      · exact .bind (.reject (hargs _ List.mem_cons_self)) fun _ _ => .pure trivial
      · exact .pure trivial
  · exact .bind (.reject h) fun _ _ => .pure trivial

theorem points_specialCall (b : Builtin) (calleeSpan : Span) {args : List Typed.Expr}
    (hargs : ∀ a ∈ args, S a.span) (h : S span) :
    Points S (specialCall b calleeSpan args span) fun t => t.span = span :=
  .bind (points_specialType b hargs h) fun _ _ => .pure rfl

theorem points_openParams (hint : Hint) : ∀ (i : Nat) {ps : List Source.OpenParam},
    (∀ p ∈ ps, S p.span) → Points S (openParams hint i ps) fun _ => True
  | _, [], _ => .pure trivial
  | i, p :: ps, hps => by
      obtain ⟨hp, hps⟩ := List.forall_mem_cons.1 hps
      -- whichever type the parameter gets, the others follow
      have hrest : ∀ t, Points S (do
          let ps ← openParams hint (i + 1) ps
          pure ((⟨p.name, t, p.span⟩ : Typed.Param) :: ps)) fun _ => True := fun t =>
        .bind (points_openParams hint (i + 1) hps) fun _ _ => .pure trivial
      unfold openParams
      split
      · exact hrest _
      · exact hrest _
      · exact .bind (.reject hp) fun _ _ => hrest _

theorem span_lambda (ps : List Typed.Param) (v : Typed.Expr) (cs : List String) :
    (lambda ps v cs span).span = span := by
  unfold lambda
  split <;> rfl

theorem points_return (expected : List Ty) (values : List Typed.Expr) (h : S span) :
    Points S (return_ expected values span) fun _ => True := by
  unfold return_
  dsimp only
  split
  · exact .pure trivial
  · split
    · exact .reject h
    · split
      · exact .reject h
      · exact .pure trivial

theorem points_assignment (l : Option Local) (x : String) {value : Typed.Expr}
    (hvalue : S value.span) (h : S span) :
    Points S (assignment l x value span) fun _ => True := by
  unfold assignment
  split
  · exact .reject h
  · split
    · exact .reject h
    · exact .bind (points_expect hvalue) fun _ _ => .pure trivial

theorem points_declaration (x : String) (written : Option Ty) {value : Typed.Expr}
    (hvalue : S value.span) : Points S (declaration x written value) fun _ => True := by
  unfold declaration
  split
  · exact .pure trivial
  · exact .bind (points_expect hvalue) fun _ _ => .pure trivial

end Rules

/-! ## The walk -/

section Walk

variable {S : Span → Prop}

mutual

theorem points_checkExpr : ∀ (e : Source.Expr) (env : Env) (hint : Hint),
    (Construct.expr e).Within S → Points S (checkExpr env hint e) fun t => t.span = e.span
  | .literal v s, _, _, _ => .pure (by cases v <;> rfl)
  | .name x s, env, _, h => points_name env x h.span
  | .unary op e s, env, _, h => by
      have he := h.part List.mem_cons_self
      refine .bind (points_checkExpr e env .none he) fun t ht => points_unary op ?_
      exact ht ▸ he.span
  | .binary op l r s, env, _, h => by
      have hl : (Construct.expr l).Within S := h.part (by simp [Construct.parts])
      have hr : (Construct.expr r).Within S := h.part (by simp [Construct.parts])
      refine .bind (points_checkExpr l env .none hl) fun t ht =>
        .bind (points_checkExpr r env _ hr) fun u hu => points_binary op ?_ ?_ h.span
      · exact ht ▸ hl.span
      · exact hu ▸ hr.span
  | .seq [] s, _, hint, h => points_untypedEmpty hint h.span
  | .seq (e :: es) s, env, hint, h => by
      have hparts : ∀ d ∈ e :: es, (Construct.expr d).Within S := fun d hd =>
        h.part (List.mem_map_of_mem hd)
      obtain ⟨he, hes⟩ := List.forall_mem_cons.1 hparts
      exact .bind (points_checkExpr e env _ he) fun t _ =>
        .bind (points_checkExprs es env _ hes) fun ts hts => points_seq t hts
  | .emptySeq _ _, _, _, _ => .pure rfl
  | .index e i s, env, _, h => by
      have he : (Construct.expr e).Within S := h.part (by simp [Construct.parts])
      have hi : (Construct.expr i).Within S := h.part (by simp [Construct.parts])
      refine .bind (points_checkExpr e env .none he) fun t ht =>
        .bind (points_checkExpr i env .none hi) fun u hu => points_index ?_ ?_
      · exact ht ▸ he.span
      · exact hu ▸ hi.span
  | .call f as s, env, _, h => by
      have hf : (Construct.expr f).Within S := h.part List.mem_cons_self
      have has : ∀ a ∈ as, (Construct.expr a).Within S := fun a ha =>
        h.part (List.mem_cons_of_mem _ (List.mem_map_of_mem ha))
      simp only [checkExpr]
      split
      -- `len` and `println` have rules of their own, for the arguments alone
      · exact .bind (points_checkExprs as env _ has) fun ts hts =>
          points_specialCall _ f.span hts h.span
      · refine .bind (points_checkExpr f env .none hf) fun t ht =>
          .bind (points_signature? ?_) fun sig _ =>
            .bind (points_checkExprs as env _ has) fun ts hts => points_call t sig hts h.span
        exact ht ▸ hf.span
  | .lambda ps b cs s, env, hint, h => by
      have hps : ∀ p ∈ ps, S p.span := fun p hp =>
        (h.part (List.mem_append_left _ (List.mem_map_of_mem hp))).span
      have hb : (Construct.expr b).Within S :=
        h.part (List.mem_append_right _ List.mem_cons_self)
      exact .bind (points_openParams hint 0 hps) fun ps' _ =>
        .bind (points_checkExpr b _ .none hb) fun t _ => .pure (span_lambda ps' t cs)
  | .block ps rs b cs s, env, _, h => by
      have hb : ∀ d ∈ b, (Construct.stmt d).Within S := fun d hd =>
        h.part (List.mem_append_right _ (List.mem_map_of_mem hd))
      refine .bind (points_checkBlock b _ hb) fun ts _ => ?_
      split
      · exact .bind (.reject h.span) fun _ _ => .pure rfl
      · exact .pure rfl
  | .error _, _, _, _ => .pure rfl

theorem points_checkExprs : ∀ (es : List Source.Expr) (env : Env) (hints : Nat → Hint),
    (∀ e ∈ es, (Construct.expr e).Within S) →
      Points S (checkExprs env hints es) fun ts => ∀ t ∈ ts, S t.span
  | [], _, _, _ => .pure nofun
  | e :: es, env, hints, h => by
      obtain ⟨he, hes⟩ := List.forall_mem_cons.1 h
      refine .bind (points_checkExpr e env (hints 0) he) fun t ht =>
        .bind (points_checkExprs es env _ hes) fun ts hts => .pure ?_
      exact List.forall_mem_cons.2 ⟨ht ▸ he.span, hts⟩

theorem points_checkStmt : ∀ (s : Source.Stmt) (env : Env), (Construct.stmt s).Within S →
    Points S (checkStmt env s) fun _ => True
  | .declare c x t e s, env, h => by
      have he := h.part List.mem_cons_self
      refine .bind (points_checkExpr e env _ he) fun v hv =>
        .bind (points_declaration x _ ?_) fun _ _ => .pure trivial
      exact hv ▸ he.span
  | .assign x e s, env, h => by
      have he := h.part List.mem_cons_self
      refine .bind (points_checkExpr e env _ he) fun v hv =>
        .bind (points_assignment _ x ?_ h.span) fun _ _ => .pure trivial
      exact hv ▸ he.span
  | .ifThen c t s, env, h => by
      have hc := h.part List.mem_cons_self
      have ht : ∀ d ∈ t, (Construct.stmt d).Within S := fun d hd =>
        h.part (List.mem_cons_of_mem _ (List.mem_map_of_mem hd))
      refine .bind (points_checkExpr c env .none hc) fun v hv => .bind (points_expect ?_) fun _ _ =>
        .bind (points_checkBlock t env ht) fun _ _ => .pure trivial
      exact hv ▸ hc.span
  | .ifElse c t e s, env, h => by
      have hc := h.part List.mem_cons_self
      have hblocks : ∀ d ∈ t ++ e, (Construct.stmt d).Within S := fun d hd =>
        h.part (List.mem_cons_of_mem _ (by simpa using hd))
      obtain ⟨ht, he⟩ := List.forall_mem_append.1 hblocks
      refine .bind (points_checkExpr c env .none hc) fun v hv => .bind (points_expect ?_) fun _ _ =>
        .bind (points_checkBlock t env ht) fun _ _ =>
          .bind (points_checkBlock e env he) fun _ _ => .pure trivial
      exact hv ▸ hc.span
  | .while c b s, env, h => by
      have hc := h.part List.mem_cons_self
      have hb : ∀ d ∈ b, (Construct.stmt d).Within S := fun d hd =>
        h.part (List.mem_cons_of_mem _ (List.mem_map_of_mem hd))
      refine .bind (points_checkExpr c env .none hc) fun v hv => .bind (points_expect ?_) fun _ _ =>
        .bind (points_checkBlock b env hb) fun _ _ => .pure trivial
      exact hv ▸ hc.span
  | .return es s, env, h => by
      have hes : ∀ e ∈ es, (Construct.expr e).Within S := fun e he =>
        h.part (List.mem_map_of_mem he)
      exact .bind (points_checkExprs es env _ hes) fun ts _ =>
        .bind (points_return env.results ts h.span) fun _ _ => .pure trivial
  | .expr e s, env, h =>
      .bind (points_checkExpr e env .none (h.part List.mem_cons_self)) fun _ _ => .pure trivial
  | .error _, _, _ => .pure trivial

theorem points_checkBlock : ∀ (ss : List Source.Stmt) (env : Env),
    (∀ s ∈ ss, (Construct.stmt s).Within S) → Points S (checkBlock env ss) fun _ => True
  | [], _, _ => .pure trivial
  | s :: ss, env, h => by
      obtain ⟨hs, hss⟩ := List.forall_mem_cons.1 h
      exact .bind (points_checkStmt s env hs) fun p _ =>
        .bind (points_checkBlock ss p.2 hss) fun _ _ => .pure trivial

end

theorem points_checkFunction (fs : List (String × Signature)) {f : Source.Function}
    (h : (Construct.function f).Within S) : Points S (checkFunction fs f) fun _ => True := by
  have hb : ∀ s ∈ f.body, (Construct.stmt s).Within S := fun s hs =>
    h.part (List.mem_append_right _ (List.mem_map_of_mem hs))
  have hspan : S f.span := h.span
  unfold checkFunction
  split
  · refine .bind (.reject hspan) fun _ _ => .bind (points_checkBlock f.body _ hb) fun ts _ => ?_
    split
    · exact .bind (.reject hspan) fun _ _ => .pure trivial
    · exact .pure trivial
  · refine .bind (points_checkBlock f.body _ hb) fun ts _ => ?_
    split
    · exact .bind (.reject hspan) fun _ _ => .pure trivial
    · exact .pure trivial

end Walk

/-- Whatever is found in a program is found at spans of constructs of the program. -/
theorem points_check {S : Span → Prop} {p : Source.Program} (h : ∀ c, p.Contains c → S c.span) :
    Points S (Typed.Program.check p) fun _ => True := by
  refine ⟨fun f hf => ?_, trivial⟩
  rw [Typed.Program.check, Report.findings_bind, findings_mapM, Report.findings_pure,
    List.append_nil] at hf
  obtain ⟨g, hg, hf⟩ := List.mem_flatMap.1 hf
  exact (points_checkFunction (signatures p) fun c hc => h c ⟨g, hg, hc⟩).1 f hf

end Check

/-! ## Silent parses -/

theorem Token.byteLength_toList (source : String) :
    byteLength source.toList = source.utf8ByteSize := by
  have hlength : ∀ cs : List Char, byteLength cs = (String.ofList cs).utf8ByteSize := by
    intro cs
    rw [String.utf8ByteSize_ofList]
    induction cs with
    | nil => rfl
    | cons c cs ih =>
        simp only [byteLength, List.foldr_cons, String.utf8Len] at ih ⊢
        omega
  rw [hlength, String.ofList_toList]

/-- A span that covers a stretch of a text lies in the text. -/
theorem Token.Covers.bounds {source : String} {s : Span} {before text after : List Char}
    (h : Token.Covers source.toList s before text after) :
    s.start ≤ s.stop ∧ s.stop ≤ source.utf8ByteSize := by
  obtain ⟨hsource, rfl⟩ := h
  rw [← Token.byteLength_toList, hsource]
  simp only [Token.byteLength_append]
  omega

/-- **The trees of silent parses are soundly located.** If nothing is reported on reading a text, then
every function, parameter, statement and expression of the tree starts where a token of the text
starts and ends where one ends. The constructs that it directly consists of stand in it, in the order
of the text and without overlap; the functions of the program follow each other in the same way.
Everything that the checker then reports, and every label of a report, stands in the text, between two
characters on both sides. -/
theorem Source.Program.soundly_located {source : String}
    (h : (Source.Program.ofSource source).findings = []) :
    (∀ c, (Source.Program.ofSource source).value.Contains c →
        c.Located (Token.lex source).value) ∧
      (Source.Program.ofSource source).value.functions.Pairwise
        (fun f g => f.span.stop ≤ g.span.start) ∧
      ∀ d ∈ ((Typed.Program.check (Source.Program.ofSource source).value).mapFindings
          Typing.Finding.diagnostic).findings,
        ∀ s ∈ d.span :: d.labels.map Prod.fst,
          (s.start ≤ s.stop ∧ s.stop ≤ source.utf8ByteSize) ∧
            ∃ before text after, Token.Covers source.toList s before text after := by
  obtain ⟨hlocated, hfunctions⟩ := Source.Program.located_of_silent h
  let S (s : Span) : Prop := ∃ before text after, Token.Covers source.toList s before text after
  have hS : ∀ s, S s → (s.start ≤ s.stop ∧ s.stop ≤ source.utf8ByteSize) ∧ S s := by
    rintro s ⟨before, text, after, hcovers⟩
    exact ⟨hcovers.bounds, before, text, after, hcovers⟩
  have hpoints := Check.points_check (S := S) fun c hc => (hlocated c hc).covers
  refine ⟨hlocated, hfunctions, fun d hd => ?_⟩
  rw [Report.findings_mapFindings] at hd
  obtain ⟨f, hf, rfl⟩ := List.mem_map.1 hd
  obtain ⟨hspan, hothers⟩ := hpoints.1 f hf
  refine List.forall_mem_cons.2 ⟨hS _ hspan, fun s hs => ?_⟩
  -- the labels of a report are the other places of the finding
  simp only [Typing.Finding.diagnostic, List.map_map, List.mem_map] at hs
  obtain ⟨o, ho, rfl⟩ := hs
  exact hS _ (hothers o ho)

set_option maxRecDepth 100000 in
/-- A map over a string in parentheses that holds a character of two bytes. The fault is at the span
of the parentheses, and its label is on the other operand. -/
theorem Source.Program.soundly_located_label :
    let source := "function f() \x7b (\"é\") |> str; \x7d"
    let p := (Source.Program.ofSource source).value
    (Source.Program.ofSource source).findings = [] ∧
      ((Typed.Program.check p).mapFindings Typing.Finding.diagnostic).findings.map
        (fun d => (d.span, d.labels.map Prod.fst)) = [(⟨15, 21⟩, [⟨25, 28⟩])] ∧
      (∀ c, p.Contains c → c.Located (Token.lex source).value) ∧
      ∀ d ∈ ((Typed.Program.check p).mapFindings Typing.Finding.diagnostic).findings,
        ∀ s ∈ d.span :: d.labels.map Prod.fst,
          ∃ before text after, Token.Covers source.toList s before text after := by
  intro source p
  have hsilent : (Source.Program.ofSource source).findings = [] := by decide +kernel
  obtain ⟨hlocated, -, hreports⟩ := Source.Program.soundly_located hsilent
  exact ⟨hsilent, by decide +kernel, hlocated, fun d hd s hs => (hreports d hd s hs).2⟩

end Rivulet
