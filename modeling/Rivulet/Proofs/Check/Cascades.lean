import Rivulet.Proofs.Check.Soundness
import Rivulet.Source.Parser

set_option autoImplicit false

/-! # Reports on what was rejected already

A mistake should be reported once. A fault that reports a disagreement between two types is a
*cascade* if poison occurs in one of them: a part of that type was rejected before, and the author has
heard of it.

Nearly every comparison of the checker is skipped if poison occurs anywhere in the two types. Two are
not: the elements of a sequence and the values of a `return` are skipped only if one of them is
poison as a whole, so a closure whose parameter or result was rejected is still compared there. That
is exactly where cascades come from. `Typed.Program.cascades` finds these places in a checked program,
and `cascades_check` says that the checker reports a cascade if and only if there is one, and that no
other comparison is reported of a type with poison in it. -/

namespace Rivulet

/-- Whether a fault reports a disagreement between two types one of which holds poison. -/
def Typing.Fault.isCascade (f : Typing.Fault Ty) : Bool :=
  match f.compared? with
  | some (a, b) => a.hasPoison || b.hasPoison
  | none => false

/-- Types that a fault reports a disagreement between are not poison as a whole, and poison occurs in
them only if they are types of elements or of results. -/
def Typing.Fault.Careful (f : Typing.Fault Ty) : Prop :=
  ∀ a b, f.compared? = some (a, b) → (a ≠ .poison ∧ b ≠ .poison) ∧
    ((a.hasPoison || b.hasPoison) = true → f = .mixedElements a b ∨ f = .returnType a b)

theorem Ty.ne_poison_of_hasPoison {t : Ty} (h : t.hasPoison = false) : t ≠ .poison := by
  rintro rfl
  cases h

theorem Typing.Fault.careful_of_isCascade {f : Typing.Fault Ty} (h : f.isCascade = false) :
    f.Careful := by
  intro a b hab
  simp only [Typing.Fault.isCascade, hab] at h
  have hnone : a.hasPoison = false ∧ b.hasPoison = false := by simpa using h
  refine ⟨⟨Ty.ne_poison_of_hasPoison hnone.1, Ty.ne_poison_of_hasPoison hnone.2⟩, fun hpoison => ?_⟩
  rw [h] at hpoison
  cases hpoison

theorem Ty.anyPoison_eq_false_iff {ts : List Ty} :
    Ty.anyPoison ts = false ↔ ∀ t ∈ ts, t.hasPoison = false := by
  induction ts with
  | nil => simp [Ty.anyPoison]
  | cons t ts ih => simp [Ty.anyPoison, ih]

/-! ## The places -/

namespace Typed

/-- Whether a sequence literal compares a poisoned type: no element is poison as a whole, and there is
an element of another type than the first, where poison occurs in either type. -/
def mixesPoison : List Expr → Bool
  | [] => false
  | e :: es =>
      !((e :: es).any fun e => e.ty = .poison) &&
        es.any fun d => decide (d.ty ≠ e.ty) && (e.ty.hasPoison || d.ty.hasPoison)

/-- Whether a `return` compares a poisoned type with one of the results `rs`, which hold no poison:
there are as many values as results, no value is poison as a whole, and poison occurs in the first
value that is not of the type of its result. -/
def returnsPoison (rs : List Ty) (values : List Expr) : Bool :=
  let found := Check.returned rs values
  !Ty.anyPoison rs && !(found.any fun t => t = .poison) && found.length == rs.length &&
    ((rs.zip found).find? fun (e, f) => e ≠ f).any fun p => p.2.hasPoison

mutual

/-- Whether an expression holds a place where a poisoned type is compared. -/
def Expr.cascades : Expr → Bool
  | .int _ _ | .bool _ _ | .str _ _ | .local _ _ | .function _ _ | .builtin _ _ | .error _ => false
  | .unary _ e _ => e.cascades
  | .binary _ l r _ => l.cascades || r.cascades
  | .seq es _ => Expr.anyCascades es || mixesPoison es
  | .index s p _ => s.cascades || p.cascades
  | .call f as _ => f.cascades || Expr.anyCascades as
  | .closure _ rs b _ _ => Stmt.anyCascades rs b
termination_by structural e => e

/-- Whether one of several expressions holds such a place. -/
def Expr.anyCascades : List Expr → Bool
  | [] => false
  | e :: es => e.cascades || Expr.anyCascades es
termination_by structural es => es

/-- Whether a statement in a function or closure with the results `rs` holds such a place. -/
def Stmt.cascades (rs : List Ty) : Stmt → Bool
  | .declare _ _ _ e _ | .assign _ e _ | .expr e _ => e.cascades
  | .if c t e _ => c.cascades || Stmt.anyCascades rs t || Stmt.anyCascades rs e
  | .while c b _ => c.cascades || Stmt.anyCascades rs b
  | .return es _ => Expr.anyCascades es || returnsPoison rs es
termination_by structural s => s

/-- Whether one of several statements holds such a place. -/
def Stmt.anyCascades (rs : List Ty) : List Stmt → Bool
  | [] => false
  | s :: ss => s.cascades rs || Stmt.anyCascades rs ss
termination_by structural ss => ss

end

/-- Whether a checked program holds a place where a poisoned type is compared. -/
def Program.cascades (p : Program) : Bool :=
  p.functions.any fun f => Stmt.anyCascades f.results f.body

theorem Stmt.anyCascades_append (rs : List Ty) (ss ts : List Stmt) :
    Stmt.anyCascades rs (ss ++ ts) = (Stmt.anyCascades rs ss || Stmt.anyCascades rs ts) := by
  induction ss with
  | nil => rfl
  | cons s ss ih => simp only [List.cons_append, Stmt.anyCascades, ih, Bool.or_assoc]

end Typed

namespace Check

open Typing (Finding expect)

/-! ## Reports of cascades -/

/-- Whether a cascade is among the findings. -/
def Checked.cascades {α : Type} (r : Checked α) : Bool := r.findings.any fun f => f.fault.isCascade

section Reports

variable {α β : Type}

@[simp] theorem cascades_pure (a : α) : Checked.cascades (pure a) = false := rfl

@[simp] theorem cascades_bind (r : Checked α) (f : α → Checked β) :
    Checked.cascades (r >>= f) = (r.cascades || (f r.value).cascades) := by
  simp only [Checked.cascades, Report.findings_bind, List.any_append]

@[simp] theorem cascades_map (f : α → β) (r : Checked α) :
    Checked.cascades (f <$> r) = r.cascades := by
  simp only [Checked.cascades, Report.findings_map]

@[simp] theorem cascades_tell (f : Finding Ty) :
    Checked.cascades (Report.tell f) = f.fault.isCascade := by
  simp only [Checked.cascades, Report.findings_tell, List.any_cons, List.any_nil, Bool.or_false]

@[simp] theorem cascades_reject (f : Typing.Fault Ty) (span : Span) :
    Checked.cascades (reject f span) = f.isCascade := cascades_tell _

end Reports

/-! ## The rules

All rules but those of sequence literals and of `return` report no cascade. -/

theorem cascades_expect (place : Typing.Place) (expected found : Ty) (span : Span) :
    Checked.cascades (expect place expected found span) = false := by
  unfold expect
  split
  · rfl
  · rename_i h
    simp only [TypeShape.hasPoison, Bool.or_eq_true, not_or, Bool.not_eq_true] at h
    simp [Typing.Fault.isCascade, Typing.Fault.compared?, h.1]

/-- A fault of operands compares types without poison only. -/
theorem isCascade_of_checkBinary {op : BinaryOp} {l r : Ty} {f : Typing.OperandFault Ty}
    (h : Typing.checkBinary op.rule l r = .error f) :
    (Typing.Fault.operands op f).isCascade = false := by
  have hverdict := Typing.checkBinary_verdict op.rule l r
  rw [h] at hverdict
  cases hverdict with
  | map _ _ _ hmap =>
      cases hmap with
      | element _ _ hp he _ => exact Bool.or_eq_false_iff.2 ⟨hp, he⟩
      | _ => rfl
  | invalid _ hl hr => exact Bool.or_eq_false_iff.2 ⟨hl, hr⟩

theorem cascades_name (env : Env) (x : String) (span : Span) :
    Checked.cascades (name env x span) = false := by
  unfold name
  split
  · rfl
  · rfl
  · split <;> rfl
  · rfl

theorem cascades_untypedEmpty (hint : Hint) (span : Span) :
    Checked.cascades (untypedEmpty hint span) = false := by
  unfold untypedEmpty
  split <;> rfl

theorem cascades_unary (op : UnaryOp) (e : Typed.Expr) (span : Span) :
    Checked.cascades (unary op e span) = false := by
  unfold unary
  split
  · rfl
  · split <;> rfl

theorem cascades_binary (op : BinaryOp) (l r : Typed.Expr) (span : Span) :
    Checked.cascades (binary op l r span) = false := by
  unfold binary
  split
  · rfl
  · rename_i f hf
    have hfault := isCascade_of_checkBinary hf
    cases f.blame <;> simp [hfault]

theorem cascades_index (s i : Typed.Expr) (span : Span) :
    Checked.cascades (index s i span) = false := by
  unfold index
  split
  · rfl
  · split
    · simp [cascades_expect]
    · rfl

theorem cascades_signature? (f : Typed.Expr) : Checked.cascades (signature? f) = false := by
  unfold signature?
  split <;> rfl

theorem cascades_arguments :
    ∀ (n : Nat) (as : List Typed.Expr) (ps : List Ty),
      Checked.cascades (arguments n as ps) = false
  | _, [], _ => by simp [arguments]
  | _, _ :: _, [] => by simp [arguments]
  | n, a :: as, p :: ps => by
      simp [arguments, cascades_expect, cascades_arguments (n + 1) as ps]

theorem cascades_call (f : Typed.Expr) (sig : Option Signature) (as : List Typed.Expr)
    (span : Span) : Checked.cascades (call f sig as span) = false := by
  unfold call
  split
  · rfl
  · split
    · rfl
    · simp [cascades_arguments]

theorem cascades_specialCall (b : Builtin) (calleeSpan : Span) (as : List Typed.Expr)
    (span : Span) : Checked.cascades (specialCall b calleeSpan as span) = false := by
  have htype : Checked.cascades (specialType b as span) = false := by
    unfold specialType
    split
    · split
      · rfl
      · split <;> rfl
    · rfl
  simp [specialCall, htype]

theorem cascades_openParams (hint : Hint) :
    ∀ (i : Nat) (ps : List Source.OpenParam), Checked.cascades (openParams hint i ps) = false
  | _, [] => rfl
  | i, p :: ps => by
      unfold openParams
      split <;>
        simp [cascades_openParams hint (i + 1) ps, Typing.Fault.isCascade, Typing.Fault.compared?]

theorem cascades_assignment (l : Option Local) (x : String) (e : Typed.Expr) (span : Span) :
    Checked.cascades (assignment l x e span) = false := by
  unfold assignment
  split
  · rfl
  · split
    · rfl
    · simp [cascades_expect]

theorem cascades_declaration (x : String) (written : Option Ty) (e : Typed.Expr) :
    Checked.cascades (declaration x written e) = false := by
  unfold declaration
  split
  · rfl
  · simp [cascades_expect]

/-! ### The two exceptions -/

theorem cascades_sameElements (first : Ty) (es : List Typed.Expr) :
    Checked.cascades (sameElements first es)
      = es.any fun d => decide (d.ty ≠ first) && (first.hasPoison || d.ty.hasPoison) := by
  induction es with
  | nil => rfl
  | cons e es ih =>
      unfold sameElements
      by_cases h : e.ty = first
      · simp [h, ih]
      · simp [h, ih, Typing.Fault.isCascade, Typing.Fault.compared?]

/-- A sequence literal reports a cascade exactly if it compares a poisoned type. -/
theorem cascades_seq (first : Typed.Expr) (rest : List Typed.Expr) (span : Span) :
    Checked.cascades (seq first rest span) = Typed.mixesPoison (first :: rest) := by
  unfold seq
  rw [Typed.mixesPoison]
  by_cases h : ((first :: rest).any fun e => e.ty = .poison) = true
  · rw [if_pos h, h]
    rfl
  · have hnone : ((first :: rest).any fun e => e.ty = .poison) = false := by simpa using h
    rw [if_neg h, hnone]
    simp [cascades_sameElements]

/-- Where the results hold no poison, a `return` reports a cascade exactly if it compares a poisoned
type. -/
theorem cascades_return {rs : List Ty} (hrs : Ty.anyPoison rs = false) (values : List Typed.Expr)
    (span : Span) :
    Checked.cascades (return_ rs values span) = Typed.returnsPoison rs values := by
  unfold return_ Typed.returnsPoison
  simp only [hrs, Bool.not_false, Bool.true_and]
  by_cases hpoison : ((returned rs values).any fun t => t = .poison) = true
  · simp [hpoison]
  · rw [if_neg hpoison]
    by_cases hlen : (returned rs values).length = rs.length
    · rw [if_neg (by simpa using hlen)]
      cases hfind : (rs.zip (returned rs values)).find? fun (e, f) => e ≠ f with
      | none => simp
      | some p =>
          obtain ⟨e, f⟩ := p
          have hmem : e ∈ rs := (List.of_mem_zip (List.mem_of_find?_eq_some hfind)).1
          have he : e.hasPoison = false := Ty.anyPoison_eq_false_iff.1 hrs e hmem
          simp [hpoison, hlen, Typing.Fault.isCascade, Typing.Fault.compared?, he]
    · rw [if_pos (by simpa using hlen)]
      simp [hlen, Typing.Fault.isCascade, Typing.Fault.compared?]

/-- The implicit `return` of a closure with an expression is not compared with anything: its results
are those of the value itself. -/
theorem returnsPoison_toResults (v : Typed.Expr) :
    Typed.returnsPoison v.ty.toResults [v] = false := by
  rw [Bool.eq_false_iff]
  intro h
  simp only [Typed.returnsPoison, Bool.and_eq_true, Bool.not_eq_true', Option.any_eq_true] at h
  obtain ⟨⟨⟨hrs, -⟩, -⟩, p, hfind, hp⟩ := h
  have hty : v.ty.hasPoison = false := by
    cases hv : v.ty with
    | tuple ts => simpa [hv, Ty.toResults, Ty.hasPoison] using hrs
    | unit => rfl
    | _ => simpa [hv, Ty.toResults, Ty.anyPoison] using hrs
  have hfound : ∀ t ∈ returned v.ty.toResults [v], t.hasPoison = false := by
    intro t ht
    by_cases hlen : 1 < v.ty.toResults.length
    · rw [returned, if_pos hlen] at ht
      exact Ty.anyPoison_eq_false_iff.1 hrs t ht
    · rw [returned, if_neg hlen, List.mem_singleton] at ht
      rw [ht, hty]
  have hmem := (List.of_mem_zip (List.mem_of_find?_eq_some hfind)).2
  rw [hfound p.2 hmem] at hp
  cases hp

/-! ## The walk -/

theorem cascades_literal (v : Source.Literal) (span : Span) : (literal v span).cascades = false := by
  cases v <;> rfl

theorem cascades_value_name (env : Env) (x : String) (span : Span) :
    (name env x span).value.cascades = false := by
  unfold name
  split
  · rfl
  · rfl
  · split <;> rfl
  · rfl

theorem cascades_lambda (ps : List Typed.Param) (v : Typed.Expr) (cs : List String) (span : Span) :
    (lambda ps v cs span).cascades = v.cascades := by
  unfold lambda
  split <;>
    simp [closure, Typed.Expr.cascades, Typed.Stmt.anyCascades, Typed.Stmt.cascades,
      Typed.Expr.anyCascades, returnsPoison_toResults]

/-- A statement leaves the results of its surroundings as they are. -/
theorem results_checkStmt (env : Env) (s : Source.Stmt) :
    (checkStmt env s).value.2.results = env.results := by
  cases s <;> rfl

mutual

theorem cascades_checkExpr {env : Env} (henv : Ty.anyPoison env.results = false) :
    ∀ (hint : Hint) (e : Source.Expr),
      (checkExpr env hint e).cascades = (checkExpr env hint e).value.cascades
  | hint, .literal v s => by
      simp only [checkExpr, cascades_pure, Report.value_pure, cascades_literal]
  | hint, .name x s => by
      simp only [checkExpr, cascades_name, cascades_value_name]
  | hint, .unary op e s => by
      obtain ⟨i, hi⟩ := checkExpr_unary_form s env hint op e
      rw [hi, Typed.Expr.cascades, ← cascades_checkExpr henv]
      simp only [checkExpr, cascades_bind, cascades_unary, Bool.or_false]
  | hint, .binary op l r s => by
      simp only [checkExpr, cascades_bind, cascades_binary, Bool.or_false, Report.value_bind]
      obtain ⟨i, hi⟩ := binary_form s op (checkExpr env .none l).value
        (checkExpr env (if op = .map then .mapOver (checkExpr env .none l).value.ty else .none) r).value
      rw [hi, Typed.Expr.cascades, cascades_checkExpr henv .none l, cascades_checkExpr henv _ r]
  | hint, .seq [] s => by
      obtain ⟨i, hi⟩ := untypedEmpty_form s hint
      simp only [checkExpr, cascades_untypedEmpty, hi]
      rfl
  | hint, .seq (e :: es) s => by
      simp only [checkExpr, cascades_bind, cascades_seq, Report.value_bind]
      obtain ⟨i, hi⟩ := seq_form s
        (checkExpr env (.ofOption (hint.expected?.bind Ty.element?)) e).value
        (checkExprs env (fun _ => .ofOption (hint.expected?.bind Ty.element?)) es).value
      rw [hi, Typed.Expr.cascades, Typed.Expr.anyCascades, cascades_checkExpr henv _ e,
        cascades_checkExprs henv _ es, Bool.or_assoc]
  | hint, .emptySeq t s => by
      simp [checkExpr, Typed.Expr.cascades, Typed.Expr.anyCascades, Typed.mixesPoison]
  | hint, .index e p s => by
      obtain ⟨i, hi⟩ := checkExpr_index_form s env hint e p
      rw [hi, Typed.Expr.cascades, ← cascades_checkExpr henv, ← cascades_checkExpr henv]
      simp only [checkExpr, cascades_bind, cascades_index, Bool.or_false]
  | hint, .call f as s => by
      simp only [checkExpr]
      split
      · simp only [cascades_bind, cascades_specialCall, Bool.or_false]
        simp only [specialCall, Report.value_bind, Report.value_pure, Typed.Expr.cascades,
          Bool.false_or]
        exact cascades_checkExprs henv _ as
      · simp only [cascades_bind, cascades_signature?, cascades_call, Bool.or_false, Bool.false_or,
          Report.value_bind]
        obtain ⟨i, hi⟩ := call_form s (checkExpr env .none f).value
          (signature? (checkExpr env .none f).value).value
          (checkExprs env (fun i => .ofOption (((signature? (checkExpr env .none f).value).value.map
            Signature.params).getD [])[i]?) as).value
        rw [hi, Typed.Expr.cascades, cascades_checkExpr henv _ f, cascades_checkExprs henv _ as]
  | hint, .lambda ps b cs s => by
      -- parameters have no influence on the expected results
      have hinner : Ty.anyPoison
          (env.declareParams (declarations (openParams hint 0 ps).value)).results = false := by
        rwa [Env.results_declareParams]
      have hbody := cascades_checkExpr hinner .none b
      simp only [checkExpr, cascades_bind, cascades_openParams, cascades_pure, Bool.false_or,
        Bool.or_false, Report.value_bind, Report.value_pure, cascades_lambda, hbody]
  | hint, .block ps rs b cs s => by
      have hinner : Ty.anyPoison (Env.mk (env.declareParams (declarations (params ps))).functions
          (env.declareParams (declarations (params ps))).locals (typesOf rs)).results = false :=
        Ty.anyPoison_of_allSimple _ (allSimple_typesOf rs)
      have hbody := cascades_checkBlock hinner b
      rw [checkExpr_block_form]
      simp only [checkExpr, cascades_bind, hbody, closure, Typed.Expr.cascades]
      split <;> simp [Typing.Fault.isCascade, Typing.Fault.compared?]
  | hint, .error s => rfl

theorem cascades_checkExprs {env : Env} (henv : Ty.anyPoison env.results = false) :
    ∀ (hints : Nat → Hint) (es : List Source.Expr),
      (checkExprs env hints es).cascades = Typed.Expr.anyCascades (checkExprs env hints es).value
  | _, [] => rfl
  | hints, e :: es => by
      simp only [checkExprs, cascades_bind, cascades_pure, Bool.or_false, Report.value_bind,
        Report.value_pure, Typed.Expr.anyCascades, cascades_checkExpr henv _ e,
        cascades_checkExprs henv _ es]

theorem cascades_checkStmt {env : Env} (henv : Ty.anyPoison env.results = false) :
    ∀ s : Source.Stmt, (checkStmt env s).cascades
      = Typed.Stmt.anyCascades env.results (checkStmt env s).value.1.toList
  | .declare c x t e s => by
      simp [checkStmt, Typed.Stmt.anyCascades, Typed.Stmt.cascades, cascades_declaration,
        cascades_checkExpr henv _ e]
  | .assign x e s => by
      simp [checkStmt, Typed.Stmt.anyCascades, Typed.Stmt.cascades, cascades_assignment,
        cascades_checkExpr henv _ e]
  | .ifThen c t s => by
      simp [checkStmt, Typed.Stmt.anyCascades, Typed.Stmt.cascades, cascades_expect,
        cascades_checkExpr henv _ c, cascades_checkBlock henv t]
  | .ifElse c t e s => by
      simp [checkStmt, Typed.Stmt.anyCascades, Typed.Stmt.cascades, cascades_expect,
        cascades_checkExpr henv _ c, cascades_checkBlock henv t, cascades_checkBlock henv e,
        Bool.or_assoc]
  | .while c b s => by
      simp [checkStmt, Typed.Stmt.anyCascades, Typed.Stmt.cascades, cascades_expect,
        cascades_checkExpr henv _ c, cascades_checkBlock henv b]
  | .return es s => by
      simp [checkStmt, Typed.Stmt.anyCascades, Typed.Stmt.cascades, cascades_return henv,
        cascades_checkExprs henv _ es]
  | .expr e s => by
      simp [checkStmt, Typed.Stmt.anyCascades, Typed.Stmt.cascades, cascades_checkExpr henv _ e]
  | .error s => rfl

theorem cascades_checkBlock {env : Env} (henv : Ty.anyPoison env.results = false) :
    ∀ ss : List Source.Stmt, (checkBlock env ss).cascades
      = Typed.Stmt.anyCascades env.results (checkBlock env ss).value
  | [] => rfl
  | s :: ss => by
      have hres := results_checkStmt env s
      have hnext : Ty.anyPoison (checkStmt env s).value.2.results = false := by rwa [hres]
      have hrest := cascades_checkBlock hnext ss
      simp only [checkBlock, cascades_bind, cascades_pure, Bool.or_false, Report.value_bind,
        Report.value_pure, Typed.Stmt.anyCascades_append, cascades_checkStmt henv s, hrest, hres]

end

/-! ## Programs -/

/-- The results that a function is checked with hold no poison: they are written. -/
theorem anyPoison_results_functionEnv {fs : List (String × Signature)}
    (hfs : Typed.Functions.Proper fs) (f : Source.Function) :
    Ty.anyPoison ((Env.mk fs [] (signatureOf fs f).results).declareParams
      (declarations (checkedParams (signatureOf fs f) f))).results = false := by
  rw [Env.results_declareParams]
  show Ty.anyPoison (signatureOf fs f).results = false
  unfold signatureOf
  cases hl : fs.lookup f.name with
  | none => rfl
  | some sig => exact Ty.anyPoison_of_allSimple _ (hfs.lookup hl).2

theorem cascades_checkFunction {fs : List (String × Signature)} (hfs : Typed.Functions.Proper fs)
    (f : Source.Function) :
    (checkFunction fs f).cascades = Typed.Stmt.anyCascades (checkFunction fs f).value.results
      (checkFunction fs f).value.body := by
  have hbody := cascades_checkBlock (anyPoison_results_functionEnv hfs f) f.body
  rw [Env.results_declareParams] at hbody
  have hmain : Checked.cascades (reject .mainParams f.span) = false := rfl
  have hfalls : Checked.cascades (reject (.functionFallsThrough f.name) f.span) = false := rfl
  rw [checkFunction_value, ← hbody]
  unfold checkFunction
  split
  all_goals
    simp only [cascades_bind, hmain, Bool.false_or]
    split <;> simp only [cascades_bind, cascades_pure, hfalls, Bool.or_false] <;> rfl

theorem cascades_mapM (g : Source.Function → Checked Typed.Function) (fs : List Source.Function) :
    (fs.mapM g).cascades = fs.any fun f => (g f).cascades := by
  simp only [Checked.cascades, findings_mapM, List.any_flatMap]

/-! ## Faults of comparisons

The other half: whatever disagreement is reported, neither type is poison as a whole, and only elements
and results are compared although poison occurs in them. The rules that report no cascade need no second
look here. -/

/-- All findings are careful about what was rejected before. -/
def Checked.Careful {α : Type} (r : Checked α) : Prop := ∀ f ∈ r.findings, f.fault.Careful

namespace Checked.Careful

variable {α β : Type}

theorem pure (a : α) : Checked.Careful (pure a) := by
  intro f hf
  cases hf

theorem bind {r : Checked α} {f : α → Checked β} (hr : r.Careful) (hf : (f r.value).Careful) :
    Checked.Careful (r >>= f) := by
  intro g hg
  rw [Report.findings_bind, List.mem_append] at hg
  exact hg.elim (hr g) (hf g)

theorem of_cascades {r : Checked α} (h : r.cascades = false) : r.Careful := by
  intro f hf
  have hall : ∀ g ∈ r.findings, ¬ g.fault.isCascade = true := by
    simpa only [Checked.cascades, List.any_eq_false] using h
  exact Typing.Fault.careful_of_isCascade (by simpa using hall f hf)

theorem reject {f : Typing.Fault Ty} {span : Span} (h : f.Careful) :
    Checked.Careful (Check.reject f span) := by
  intro g hg
  rw [List.mem_singleton.1 hg]
  exact h

end Checked.Careful

theorem careful_sameElements {first : Ty} (hfirst : first ≠ .poison) :
    ∀ {es : List Typed.Expr}, (∀ e ∈ es, e.ty ≠ .poison) → (sameElements first es).Careful
  | [], _ => .pure _
  | e :: es, hes => by
      have hrest : (sameElements first es).Careful :=
        careful_sameElements hfirst fun d hd => hes d (List.mem_cons_of_mem _ hd)
      unfold sameElements
      split
      · exact hrest
      · refine .bind (.reject fun a b hab => ?_) (.bind hrest (.pure _))
        cases hab
        exact ⟨⟨hfirst, hes e List.mem_cons_self⟩, fun _ => .inl rfl⟩

theorem careful_seq (first : Typed.Expr) (rest : List Typed.Expr) (span : Span) :
    Checked.Careful (seq first rest span) := by
  unfold seq
  split
  · exact .pure _
  · rename_i hnone
    have hall : ∀ e ∈ first :: rest, e.ty ≠ .poison := by simpa using hnone
    exact .bind (careful_sameElements (hall first List.mem_cons_self)
      fun e he => hall e (List.mem_cons_of_mem _ he)) (.pure _)

theorem careful_return {rs : List Ty} (hrs : Ty.anyPoison rs = false) (values : List Typed.Expr)
    (span : Span) : Checked.Careful (return_ rs values span) := by
  unfold return_
  dsimp only
  split
  · exact .pure _
  · rename_i hnone
    split
    · exact .of_cascades rfl
    · split
      · rename_i e f hfind
        have hmem := List.of_mem_zip (List.mem_of_find?_eq_some hfind)
        refine .reject fun a b hab => ?_
        cases hab
        have he : e ≠ .poison :=
          Ty.ne_poison_of_hasPoison (Ty.anyPoison_eq_false_iff.1 hrs e hmem.1)
        have hf : f ≠ .poison := by
          rintro rfl
          exact hnone (List.any_eq_true.2 ⟨_, hmem.2, by simp⟩)
        exact ⟨⟨he, hf⟩, fun _ => .inr rfl⟩
      · exact .pure _

mutual

theorem careful_checkExpr {env : Env} (henv : Ty.anyPoison env.results = false) :
    ∀ (hint : Hint) (e : Source.Expr), (checkExpr env hint e).Careful
  | _, .literal _ _ => .pure _
  | _, .name x s => .of_cascades (cascades_name env x s)
  | _, .unary _ e _ => .bind (careful_checkExpr henv _ e) (.of_cascades (cascades_unary _ _ _))
  | _, .binary _ l r _ =>
      .bind (careful_checkExpr henv _ l)
        (.bind (careful_checkExpr henv _ r) (.of_cascades (cascades_binary _ _ _ _)))
  | hint, .seq [] s => .of_cascades (cascades_untypedEmpty hint s)
  | _, .seq (e :: es) _ =>
      .bind (careful_checkExpr henv _ e) (.bind (careful_checkExprs henv _ es) (careful_seq _ _ _))
  | _, .emptySeq _ _ => .pure _
  | _, .index e i _ =>
      .bind (careful_checkExpr henv _ e)
        (.bind (careful_checkExpr henv _ i) (.of_cascades (cascades_index _ _ _)))
  | _, .call f as s => by
      simp only [checkExpr]
      split
      · exact .bind (careful_checkExprs henv _ as) (.of_cascades (cascades_specialCall _ _ _ _))
      · exact .bind (careful_checkExpr henv _ f) (.bind (.of_cascades (cascades_signature? _))
          (.bind (careful_checkExprs henv _ as) (.of_cascades (cascades_call _ _ _ _))))
  | hint, .lambda ps b _ _ =>
      .bind (.of_cascades (cascades_openParams hint 0 ps))
        (.bind (careful_checkExpr (by rwa [Env.results_declareParams]) _ b) (.pure _))
  | _, .block ps rs b _ s => by
      simp only [checkExpr]
      refine .bind (careful_checkBlock (Ty.anyPoison_of_allSimple _ (allSimple_typesOf rs)) b) ?_
      split
      · exact .bind (.of_cascades rfl) (.pure _)
      · exact .pure _
  | _, .error _ => .pure _

theorem careful_checkExprs {env : Env} (henv : Ty.anyPoison env.results = false) :
    ∀ (hints : Nat → Hint) (es : List Source.Expr), (checkExprs env hints es).Careful
  | _, [] => .pure _
  | _, e :: es =>
      .bind (careful_checkExpr henv _ e) (.bind (careful_checkExprs henv _ es) (.pure _))

theorem careful_checkStmt {env : Env} (henv : Ty.anyPoison env.results = false) :
    ∀ s : Source.Stmt, (checkStmt env s).Careful
  | .declare _ _ _ e _ =>
      .bind (careful_checkExpr henv _ e)
        (.bind (.of_cascades (cascades_declaration _ _ _)) (.pure _))
  | .assign _ e _ =>
      .bind (careful_checkExpr henv _ e)
        (.bind (.of_cascades (cascades_assignment _ _ _ _)) (.pure _))
  | .ifThen c t _ =>
      .bind (careful_checkExpr henv _ c) (.bind (.of_cascades (cascades_expect _ _ _ _))
        (.bind (careful_checkBlock henv t) (.pure _)))
  | .ifElse c t e _ =>
      .bind (careful_checkExpr henv _ c) (.bind (.of_cascades (cascades_expect _ _ _ _))
        (.bind (careful_checkBlock henv t) (.bind (careful_checkBlock henv e) (.pure _))))
  | .while c b _ =>
      .bind (careful_checkExpr henv _ c) (.bind (.of_cascades (cascades_expect _ _ _ _))
        (.bind (careful_checkBlock henv b) (.pure _)))
  | .return es _ =>
      .bind (careful_checkExprs henv _ es) (.bind (careful_return henv _ _) (.pure _))
  | .expr e _ => .bind (careful_checkExpr henv _ e) (.pure _)
  | .error _ => .pure _

theorem careful_checkBlock {env : Env} (henv : Ty.anyPoison env.results = false) :
    ∀ ss : List Source.Stmt, (checkBlock env ss).Careful
  | [] => .pure _
  | s :: ss =>
      .bind (careful_checkStmt henv s)
        (.bind (careful_checkBlock (by rwa [results_checkStmt]) ss) (.pure _))

end

theorem careful_checkFunction {fs : List (String × Signature)} (hfs : Typed.Functions.Proper fs)
    (f : Source.Function) : (checkFunction fs f).Careful := by
  have hbody := careful_checkBlock (anyPoison_results_functionEnv hfs f) f.body
  unfold checkFunction
  split
  · refine .bind (.of_cascades rfl) (.bind hbody ?_)
    split
    · exact .bind (.of_cascades rfl) (.pure _)
    · exact .pure _
  · refine .bind hbody ?_
    split
    · exact .bind (.of_cascades rfl) (.pure _)
    · exact .pure _

end Check

/-- **The checker reports a cascade exactly where a sequence literal or a `return` compares a poisoned
type**, for every program, also one with parts that could not be parsed. Whatever disagreement is
reported, neither type is poison as a whole; and if poison occurs in one of them, they are types of
elements or of results. -/
theorem Typed.Program.cascades_check (p : Source.Program) :
    ((Typed.Program.check p).findings.any fun f => f.fault.isCascade)
        = (Typed.Program.check p).value.cascades ∧
      ∀ f ∈ (Typed.Program.check p).findings, ∀ a b, f.fault.compared? = some (a, b) →
        (a ≠ .poison ∧ b ≠ .poison) ∧ ((a.hasPoison || b.hasPoison) = true →
          f.fault = .mixedElements a b ∨ f.fault = .returnType a b) := by
  constructor
  · have hfunctions : ∀ f ∈ p.functions, (Check.checkFunction (Check.signatures p) f).cascades
        = Typed.Stmt.anyCascades (Check.checkFunction (Check.signatures p) f).value.results
            (Check.checkFunction (Check.signatures p) f).value.body :=
      fun f _ => Check.cascades_checkFunction (Check.functions_proper p) f
    calc ((Typed.Program.check p).findings.any fun f => f.fault.isCascade)
        = p.functions.any fun f => (Check.checkFunction (Check.signatures p) f).cascades := by
          rw [← Check.cascades_mapM, Typed.Program.check, Report.findings_bind, Report.findings_pure,
            List.append_nil, Check.Checked.cascades]
      _ = p.functions.any fun f =>
            Typed.Stmt.anyCascades (Check.checkFunction (Check.signatures p) f).value.results
              (Check.checkFunction (Check.signatures p) f).value.body := by
          rw [Bool.eq_iff_iff, List.any_eq_true, List.any_eq_true]
          exact exists_congr fun f => and_congr_right fun hf => by rw [hfunctions f hf]
      _ = (Typed.Program.check p).value.cascades := by
          simp only [Typed.Program.cascades, Typed.Program.check, Report.value_bind,
            Report.value_pure, Check.value_mapM, List.any_map, Function.comp_def]
  · intro f hf
    rw [Check.findings_check, List.mem_flatMap] at hf
    obtain ⟨g, -, hf⟩ := hf
    exact Check.careful_checkFunction (Check.functions_proper p) g f hf

set_option maxRecDepth 100000 in
/-- Both places occur. The type of the parameter `x` cannot be found out, and is reported; then the
closure is compared with the element beside it, although a part of its type was rejected. In the same
way a closure whose body is rejected is compared with the result of the function. -/
theorem Typed.Program.cascades_check_closures :
    let elements :=
      (Source.Program.ofSource "function main() \x7b a := [x -> 1, (y: int) -> 2]; \x7d").value
    let result :=
      (Source.Program.ofSource "function f() -> fn(int) -> int \x7b return x -> y; \x7d").value
    (Typed.Program.check elements).findings.map (fun f => f.fault)
        = [.untypedParam "x", .mixedElements (.func [.poison] [.int]) (.func [.int] [.int])] ∧
      (Typed.Program.check elements).value.cascades = true ∧
      (Typed.Program.check result).findings.map (fun f => f.fault)
        = [.undefinedSymbol "y", .returnType (.func [.int] [.int]) (.func [.int] [.poison])] ∧
      (Typed.Program.check result).value.cascades = true := by
  intro elements result
  refine ⟨by decide +kernel, ?_, by decide +kernel, ?_⟩
  · rw [← (Typed.Program.cascades_check _).1]
    decide +kernel
  · rw [← (Typed.Program.cascades_check _).1]
    decide +kernel

end Rivulet
