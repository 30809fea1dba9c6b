import Rivulet.Check.Program
import Rivulet.Proofs.Check.Judgement

set_option autoImplicit false

/-! # The checking rules are sound

One lemma for each rule of the checker: if its parts are well typed and the rule reports nothing,
what it gives is well typed. The converse of what the rules are written for is used all along:
poison is never given silently, unless it came in with a part. -/

namespace Rivulet.Check

open Typed (Scope Functions)
open Typing (expect)

/-! ## Rules hand on their parts

Whatever a rule finds, it builds the node it is for out of the parts that it was given. Only the type
that is written on the node depends on what was found. -/

section Forms

variable (span : Span)

theorem unary_form (op : UnaryOp) (e : Typed.Expr) :
    ∃ i, (unary op e span).value = .unary op e i := by
  unfold unary
  split
  · exact ⟨_, rfl⟩
  · split <;> exact ⟨_, rfl⟩

theorem binary_form (op : BinaryOp) (l r : Typed.Expr) :
    ∃ i, (binary op l r span).value = .binary op l r i := by
  unfold binary
  split <;> exact ⟨_, rfl⟩

theorem untypedEmpty_form (hint : Hint) : ∃ i, (untypedEmpty hint span).value = .seq [] i := by
  unfold untypedEmpty
  split <;> exact ⟨_, rfl⟩

theorem seq_form (first : Typed.Expr) (rest : List Typed.Expr) :
    ∃ i, (seq first rest span).value = .seq (first :: rest) i := by
  unfold seq
  split <;> exact ⟨_, rfl⟩

theorem index_form (e p : Typed.Expr) : ∃ i, (index e p span).value = .index e p i := by
  unfold index
  split
  · exact ⟨_, rfl⟩
  · split <;> exact ⟨_, rfl⟩

theorem call_form (f : Typed.Expr) (sig : Option Signature) (as : List Typed.Expr) :
    ∃ i, (call f sig as span).value = .call f as i := by
  unfold call
  split
  · exact ⟨_, rfl⟩
  · split <;> exact ⟨_, rfl⟩

theorem lambda_form (ps : List Typed.Param) (v : Typed.Expr) (cs : List String) :
    ∃ rs b i, lambda ps v cs span = .closure ps rs b cs i ∧
      (b = [.expr v v.span] ∨ b = [.return [v] v.span]) := by
  unfold lambda
  split
  · exact ⟨_, _, _, rfl, Or.inl rfl⟩
  · exact ⟨_, _, _, rfl, Or.inr rfl⟩

/-! The same for the walk: what an expression is checked to, whatever is found. -/

variable (env : Env) (hint : Hint)

theorem checkExpr_unary_form (op : UnaryOp) (e : Source.Expr) :
    ∃ i, (checkExpr env hint (.unary op e span)).value
      = .unary op (checkExpr env .none e).value i :=
  unary_form span op _

theorem checkExpr_binary_form (op : BinaryOp) (l r : Source.Expr) :
    ∃ hint' i, (checkExpr env hint (.binary op l r span)).value
      = .binary op (checkExpr env .none l).value (checkExpr env hint' r).value i :=
  ⟨_, binary_form span op _ _⟩

theorem checkExpr_seq_form (es : List Source.Expr) :
    ∃ hints i, (checkExpr env hint (.seq es span)).value = .seq (checkExprs env hints es).value i := by
  cases es with
  | nil => exact ⟨fun _ => .none, untypedEmpty_form span hint⟩
  | cons e es =>
      exact ⟨fun _ => .ofOption (hint.expected?.bind Ty.element?), seq_form span _ _⟩

theorem checkExpr_index_form (e p : Source.Expr) :
    ∃ i, (checkExpr env hint (.index e p span)).value
      = .index (checkExpr env .none e).value (checkExpr env .none p).value i :=
  index_form span _ _

theorem checkExpr_call_form (f : Source.Expr) (as : List Source.Expr) :
    ∃ f' hints i, (checkExpr env hint (.call f as span)).value
        = .call f' (checkExprs env hints as).value i ∧
      (f' = (checkExpr env .none f).value ∨ ∃ x s, f = .name x s) := by
  simp only [checkExpr]
  cases hs : special? env f with
  | some b =>
      refine ⟨_, fun _ => .none, _, rfl, Or.inr ?_⟩
      cases f <;> first | exact ⟨_, _, rfl⟩ | simp [special?] at hs
  | none =>
      obtain ⟨i, hi⟩ := call_form span (checkExpr env .none f).value
        (signature? (checkExpr env .none f).value).value
        (checkExprs env (fun i => .ofOption (((signature? (checkExpr env .none f).value).value.map
          Signature.params).getD [])[i]?) as).value
      exact ⟨_, _, i, hi, Or.inl rfl⟩

theorem checkExpr_lambda_form (ps : List Source.OpenParam) (b : Source.Expr) (cs : List String) :
    ∃ ps' env' rs body i, (checkExpr env hint (.lambda ps b cs span)).value
        = .closure ps' rs body cs i ∧
      (body = [.expr (checkExpr env' .none b).value (checkExpr env' .none b).value.span] ∨
        body = [.return [(checkExpr env' .none b).value] (checkExpr env' .none b).value.span]) :=
  ⟨_, env.declareParams (declarations (openParams hint 0 ps).value), lambda_form span _ _ cs⟩

theorem checkExpr_block_form (ps : List Source.Param) (rs : List Source.TypeExpr)
    (b : List Source.Stmt) (cs : List String) :
    (checkExpr env hint (.block ps rs b cs span)).value
      = closure (params ps) (typesOf rs)
          (checkBlock { env.declareParams (declarations (params ps)) with results := typesOf rs }
            b).value cs span := by
  simp only [checkExpr, Report.value_bind]
  split <;> rfl

end Forms

/-! ## Environments -/

/-- The locals of an environment with their types. -/
def Env.scope (env : Env) : Scope := env.locals.map fun p => (p.1, p.2.ty)

/-- All types that an environment knows are proper. -/
structure Env.Proper (env : Env) : Prop where
  functions : Functions.Proper env.functions
  locals : env.scope.Proper
  results : Ty.allSimple env.results = true

theorem Env.lookup_scope (env : Env) (x : String) :
    env.scope.lookup x = (env.local? x).map Local.ty := by
  unfold Env.scope Env.local?
  induction env.locals with
  | nil => rfl
  | cons p ls ih =>
      obtain ⟨y, l⟩ := p
      simp only [List.map_cons, List.lookup_cons]
      split
      · rfl
      · exact ih

theorem Env.mem_names_of_local {env : Env} {x : String} {l : Local}
    (h : env.local? x = some l) : x ∈ env.scope.names := by
  have hlookup := env.lookup_scope x
  rw [h, Option.map_some] at hlookup
  obtain ⟨l₁, l₂, heq, -⟩ := List.lookup_eq_some_iff.1 hlookup
  rw [Scope.names, heq]
  simp

@[simp] theorem Env.scope_declare (env : Env) (x : String) (l : Local) :
    (env.declare x l).scope = (x, l.ty) :: env.scope := rfl

@[simp] theorem Env.functions_declareParams (env : Env) (ps : List (String × Ty)) :
    (env.declareParams ps).functions = env.functions := by
  unfold Env.declareParams
  induction ps generalizing env with
  | nil => rfl
  | cons p ps ih => rw [List.foldl_cons, ih]; rfl

@[simp] theorem Env.results_declareParams (env : Env) (ps : List (String × Ty)) :
    (env.declareParams ps).results = env.results := by
  unfold Env.declareParams
  induction ps generalizing env with
  | nil => rfl
  | cons p ps ih => rw [List.foldl_cons, ih]; rfl

/-- Parameters come into scope one after the other. -/
theorem Env.scope_declareParams (env : Env) (ps : List Typed.Param) :
    (env.declareParams (declarations ps)).scope = env.scope.withParams ps := by
  unfold Env.declareParams declarations Scope.withParams
  induction ps generalizing env with
  | nil => rfl
  | cons p ps ih =>
      rw [List.map_cons, List.foldl_cons, ih, Env.scope_declare]
      simp [Typed.Param.entry]

theorem Env.Proper.declareParams {env : Env} (h : env.Proper) {ps : List Typed.Param}
    (hps : Ty.allProper (ps.map Typed.Param.ty) = true) :
    (env.declareParams (declarations ps)).Proper where
  functions := by rw [Env.functions_declareParams]; exact h.functions
  locals := by rw [Env.scope_declareParams]; exact h.locals.withParams hps
  results := by rw [Env.results_declareParams]; exact h.results

theorem Env.Proper.declare {env : Env} (h : env.Proper) {x : String} {l : Local}
    (hl : l.ty.proper = true) : (env.declare x l).Proper where
  functions := h.functions
  locals := by
    rintro p (_ | ⟨_, hp⟩)
    · exact hl
    · exact h.locals p hp
  results := h.results

/-! ## Rules -/

variable {env : Env} {alive : List String} {span : Span}

/-- Two proper types that are compared silently are equal. -/
theorem eq_of_expect {place : Typing.Place} {e f : Ty} (he : e.proper = true) (hf : f.proper = true)
    (h : (expect place e f span).findings = []) : e = f := by
  have hep : TypeShape.hasPoison e = false := Ty.hasPoison_of_proper e he
  have hfp : TypeShape.hasPoison f = false := Ty.hasPoison_of_proper f hf
  unfold expect at h
  rw [hep, hfp] at h
  by_contra hne
  simp [hne] at h

theorem value_expect_self {place : Typing.Place} {t : Ty} :
    (expect place t t span).value = true := by
  simp [expect]

theorem literal_wellTyped (v : Source.Literal) :
    (literal v span).WellTyped env.functions env.scope alive := by
  cases v <;> rfl

/-- A name that is used as a value. -/
theorem name_wellTyped {x : String} (hx : x ∈ env.scope.names → x ∈ alive)
    (h : (name env x span).findings = []) :
    (name env x span).value.WellTyped env.functions env.scope alive := by
  unfold name Env.meaning at h ⊢
  cases hl : env.local? x with
  | some l =>
      refine ⟨hx (Env.mem_names_of_local hl), ?_⟩
      rw [Env.lookup_scope, hl]
      rfl
  | none =>
      simp only [hl] at h
      cases hf : env.functions.lookup x with
      | some sig => exact ⟨sig, hf, rfl⟩
      | none =>
          simp only [hf] at h
          cases hb : Builtin.ofName? x with
          | none => simp [hb, reject] at h
          | some b =>
              simp only [hb] at h
              cases b with
              | str => exact ⟨rfl, rfl⟩
              | len => simp [Builtin.valueType?, reject] at h
              | println => simp [Builtin.valueType?, reject] at h

/-- The types that a hint speaks of are proper, and a map has a sequence to its left. -/
def Hint.Proper : Hint → Prop
  | .none => True
  | .type t => t.proper = true
  | .mapOver t => ∃ e, t = .seq e ∧ e.proper = true

theorem Hint.proper_none : Hint.none.Proper := trivial

theorem Hint.proper_mapOver {t e : Ty} (ht : t = .seq e) (h : t.proper = true) :
    (Hint.mapOver t).Proper := by
  subst ht
  exact ⟨e, rfl, h⟩

theorem Hint.proper_ofOption {o : Option Ty} (h : ∀ t, o = some t → t.proper = true) :
    (Hint.ofOption o).Proper := by
  cases o with
  | none => trivial
  | some t => exact h t rfl

/-- The hint for the elements of a sequence. -/
theorem Hint.Proper.element {hint : Hint} (h : hint.Proper) :
    (Hint.ofOption (hint.expected?.bind Ty.element?)).Proper := by
  refine Hint.proper_ofOption fun t ht => ?_
  cases hint with
  | type u => exact Ty.proper_element h ht
  | none => cases ht
  | mapOver u => cases ht

theorem untypedEmpty_wellTyped {hint : Hint} (hh : hint.Proper)
    (h : (untypedEmpty hint span).findings = []) :
    (untypedEmpty hint span).value.WellTyped env.functions env.scope alive := by
  unfold untypedEmpty at h ⊢
  split at h
  · rename_i t
    exact ⟨trivial, t, hh, rfl, by simp⟩
  · cases hh
  · simp [reject] at h

theorem unary_wellTyped {op : UnaryOp} {e : Typed.Expr}
    (he : e.WellTyped env.functions env.scope alive) (hp : e.ty.proper = true)
    (h : (unary op e span).findings = []) :
    (unary op e span).value.WellTyped env.functions env.scope alive := by
  unfold unary at h ⊢
  rw [if_neg (Ty.ne_poison_of_proper hp)] at h ⊢
  split at h
  · rename_i hop
    rw [if_pos hop]
    exact ⟨he, hop, rfl⟩
  · simp [reject] at h

theorem binary_wellTyped {op : BinaryOp} {l r : Typed.Expr}
    (hl : l.WellTyped env.functions env.scope alive) (hlp : l.ty.proper = true)
    (hr : r.WellTyped env.functions env.scope alive) (hrp : r.ty.proper = true)
    (h : (binary op l r span).findings = []) :
    (binary op l r span).value.WellTyped env.functions env.scope alive := by
  unfold binary at h ⊢
  cases hc : Typing.checkBinary op.rule l.ty r.ty with
  | ok t => exact ⟨hl, hr, Typing.checkBinary_eq_ok hlp hrp hc⟩
  | error f => simp [hc] at h

/-- A sequence stands to the left of a map that is accepted, unless an operand is poison. -/
theorem binary_map_silent {l r : Typed.Expr} (h : (binary .map l r span).findings = []) :
    l.ty = .poison ∨ r.ty = .poison ∨ ∃ e, l.ty = .seq e := by
  unfold binary at h
  have hverdict := Typing.checkBinary_verdict BinaryOp.map.rule l.ty r.ty
  cases hc : Typing.checkBinary BinaryOp.map.rule l.ty r.ty with
  | error f => simp [hc] at h
  | ok t =>
      rw [hc] at hverdict
      cases hverdict with
      | poison hpoison => exact hpoison.imp_right .inl
      | map _ _ _ hmap =>
          cases hmap with
          | unknown hl _ _ | accepted hl _ _ => exact .inr (.inr ⟨_, Ty.eq_seq_of_element? hl⟩)
      | unknown hrule _ | accepted hrule _ _ => exact absurd rfl hrule

theorem sameElements_silent {first : Ty} :
    ∀ {es : List Typed.Expr}, (sameElements first es).findings = [] →
      (sameElements first es).value = true ∧ ∀ e ∈ es, e.ty = first
  | [], _ => ⟨rfl, by simp⟩
  | e :: es, h => by
      unfold sameElements at h ⊢
      split at h
      · rename_i he
        rw [if_pos he]
        have ih := sameElements_silent h
        refine ⟨ih.1, ?_⟩
        simpa [he] using ih.2
      · simp [reject] at h

theorem seq_wellTyped {first : Typed.Expr} {rest : List Typed.Expr}
    (hes : ∀ e ∈ first :: rest, e.WellTyped env.functions env.scope alive ∧ e.ty.proper = true)
    (h : (seq first rest span).findings = []) :
    (seq first rest span).value.WellTyped env.functions env.scope alive := by
  have hany : ¬ ((first :: rest).any fun e => e.ty = .poison) = true := by
    rw [List.any_eq_true]
    rintro ⟨e, he, hp⟩
    exact Ty.ne_poison_of_proper (hes e he).2 (by simpa using hp)
  unfold seq at h ⊢
  rw [if_neg hany] at h ⊢
  simp only [Report.findings_bind, List.append_eq_nil_iff] at h
  obtain ⟨hsame, hall⟩ := sameElements_silent h.1
  simp only [Report.value_bind, Report.value_pure, hsame, if_true]
  refine ⟨(Typed.Expr.wellTypedList_iff _).2 fun e he => (hes e he).1, first.ty,
    (hes first (by simp)).2, rfl, ?_⟩
  simpa using hall

theorem index_wellTyped {e i : Typed.Expr} (he : e.WellTyped env.functions env.scope alive)
    (hep : e.ty.proper = true) (hi : i.WellTyped env.functions env.scope alive)
    (hip : i.ty.proper = true) (h : (index e i span).findings = []) :
    (index e i span).value.WellTyped env.functions env.scope alive := by
  have hne : ¬ (e.ty = .poison ∨ i.ty = .poison) := by
    rintro (hp | hp)
    · exact Ty.ne_poison_of_proper hep hp
    · exact Ty.ne_poison_of_proper hip hp
  unfold index at h ⊢
  rw [if_neg hne] at h ⊢
  cases hty : e.ty with
  | seq t =>
      simp only [hty, Ty.element?, Report.findings_bind, List.append_eq_nil_iff] at h
      have hint := eq_of_expect (e := .int) rfl hip h.1
      simp only [Ty.element?, Report.value_bind, Report.value_pure, ← hint, value_expect_self,
        if_true]
      exact ⟨he, hi, hty, hint.symm⟩
  | _ => simp [hty, Ty.element?, reject] at h

/-! ## Calls -/

theorem arguments_silent :
    ∀ {as : List Typed.Expr} {ps : List Ty} {n : Nat}, as.length = ps.length →
      (∀ a ∈ as, a.ty.proper = true) → Ty.allProper ps = true →
      (arguments n as ps).findings = [] →
      (arguments n as ps).value = true ∧ as.map Typed.Expr.ty = ps
  | [], [], _, _, _, _, _ => ⟨rfl, rfl⟩
  | [], _ :: _, _, hlen, _, _, _ => by simp at hlen
  | _ :: _, [], _, hlen, _, _, _ => by simp at hlen
  | a :: as, p :: ps, n, hlen, has, hps, h => by
      simp only [List.length_cons, Nat.add_right_cancel_iff] at hlen
      simp only [List.mem_cons, forall_eq_or_imp] at has
      simp only [Ty.allProper, Bool.and_eq_true] at hps
      simp only [arguments, Report.findings_bind, List.append_eq_nil_iff] at h
      have hhere := eq_of_expect hps.1 has.1 h.1
      have ih := arguments_silent (n := n + 1) hlen has.2 hps.2 h.2.1
      refine ⟨?_, by rw [List.map_cons, ih.2, hhere]⟩
      simp only [arguments, Report.value_bind, Report.value_pure, ih.1, ← hhere,
        value_expect_self, Bool.and_self]

theorem signature?_silent {f : Typed.Expr} (hp : f.ty.proper = true)
    (h : (signature? f).findings = []) :
    ∃ ps rs, f.ty = .func ps rs ∧ (signature? f).value = some ⟨ps, rs⟩ := by
  unfold signature? at h ⊢
  cases hty : f.ty with
  | func ps rs => exact ⟨ps, rs, rfl, rfl⟩
  | poison => exact absurd hty (Ty.ne_poison_of_proper hp)
  | _ => simp [hty, reject] at h

theorem call_wellTyped {f : Typed.Expr} {as : List Typed.Expr} {ps rs : List Ty}
    (hf : f.WellTyped env.functions env.scope alive) (hfp : f.ty.proper = true)
    (hty : f.ty = .func ps rs)
    (has : ∀ a ∈ as, a.WellTyped env.functions env.scope alive ∧ a.ty.proper = true)
    (h : (call f (some ⟨ps, rs⟩) as span).findings = []) :
    (call f (some ⟨ps, rs⟩) as span).value.WellTyped env.functions env.scope alive := by
  rw [hty] at hfp
  simp only [Ty.proper, Bool.and_eq_true] at hfp
  unfold call at h ⊢
  dsimp only at h ⊢
  split at h
  · simp [reject] at h
  · rename_i hlen
    rw [if_neg hlen]
    simp only [Report.findings_bind, List.append_eq_nil_iff] at h
    obtain ⟨hok, hmap⟩ :=
      arguments_silent (not_not.1 hlen) (fun a ha => (has a ha).2) hfp.1 h.1
    have hany : (as.any fun a => a.ty = .poison) = false := by
      rw [List.any_eq_false]
      intro a ha
      simpa using Ty.ne_poison_of_proper (has a ha).2
    simp only [Report.value_bind, Report.value_pure, hok, hany, Bool.not_false, Bool.and_self,
      if_true]
    refine ⟨(Typed.Expr.wellTypedList_iff _).2 fun a ha => (has a ha).1, Or.inr (Or.inr ?_)⟩
    exact ⟨hf, rs, by rw [hty, hmap], rfl⟩

theorem specialCall_wellTyped {b : Builtin} {calleeSpan : Span} {as : List Typed.Expr}
    (hb : b = .len ∨ b = .println)
    (has : ∀ a ∈ as, a.WellTyped env.functions env.scope alive ∧ a.ty.proper = true)
    (h : (specialCall b calleeSpan as span).findings = []) :
    (specialCall b calleeSpan as span).value.WellTyped env.functions env.scope alive := by
  have hlist : Typed.Expr.WellTypedList env.functions env.scope alive as :=
    (Typed.Expr.wellTypedList_iff as).2 fun a ha => (has a ha).1
  simp only [specialCall, Report.findings_bind, List.append_eq_nil_iff, Report.findings_pure,
    and_true] at h
  simp only [specialCall, Report.value_bind, Report.value_pure]
  match as, has, h, hlist with
  | [a], has, h, hlist =>
      have hp := (has a (by simp)).2
      simp only [specialType, if_neg (Ty.ne_poison_of_proper hp)] at h ⊢
      split at h
      · simp [reject] at h
      · rename_i hnot
        rw [if_neg hnot]
        rcases hb with rfl | rfl
        · simp only [true_and] at hnot
          cases hty : a.ty with
          | seq t => exact ⟨hlist, Or.inl ⟨_, a, t, rfl, rfl, hty, rfl⟩⟩
          | _ => simp [hty, Ty.element?] at hnot
        · exact ⟨hlist, Or.inr (Or.inl ⟨_, rfl, rfl, rfl, rfl⟩)⟩
  | [], _, h, _ => simp [specialType, reject] at h
  | _ :: _ :: _, _, h, _ => simp [specialType, reject] at h

/-- A callee that is treated apart is the name of one of two builtins. -/
theorem special?_eq_some {f : Source.Expr} {b : Builtin} (h : special? env f = some b) :
    b = .len ∨ b = .println := by
  unfold special? at h
  split at h
  · split at h
    · exact Or.inl (Option.some.inj h).symm
    · exact Or.inr (Option.some.inj h).symm
    · cases h
  · cases h

/-! ## Parameters -/

/-- The type that a hint gives to a parameter. -/
theorem Hint.Proper.param {hint : Hint} (h : hint.Proper) {i : Nat} {t : Ty}
    (ht : hint.param? i = some t) : t.proper = true := by
  cases hint with
  | none => simp [Hint.param?] at ht
  | mapOver u =>
      obtain ⟨e, rfl, he⟩ := h
      simp only [Hint.param?, Ty.element?, Option.getD_some, Option.some.injEq] at ht
      rw [← ht]
      exact he
  | type u =>
      cases u with
      | func qs rs =>
          simp only [Hint.Proper, Ty.proper, Bool.and_eq_true] at h
          exact (Ty.allProper_iff qs).1 h.1 t (List.mem_of_getElem? ht)
      | poison => simp [Hint.Proper, Ty.proper] at h
      | _ => simp [Hint.param?] at ht

theorem openParams_silent {hint : Hint} (hh : hint.Proper) :
    ∀ {ps : List Source.OpenParam} {i : Nat}, (openParams hint i ps).findings = [] →
      Ty.allProper ((openParams hint i ps).value.map Typed.Param.ty) = true ∧
        (openParams hint i ps).value.map Typed.Param.name = ps.map Source.OpenParam.name
  | [], _, _ => ⟨rfl, rfl⟩
  | p :: ps, i, h => by
      -- the first parameter has the type `t`; the others are as the induction says
      have hcons : ∀ t : Ty, t.proper = true → (openParams hint (i + 1) ps).findings = [] →
          Ty.allProper (((⟨p.name, t, p.span⟩ : Typed.Param) ::
              (openParams hint (i + 1) ps).value).map Typed.Param.ty) = true ∧
            ((⟨p.name, t, p.span⟩ : Typed.Param) ::
              (openParams hint (i + 1) ps).value).map Typed.Param.name
              = (p :: ps).map Source.OpenParam.name := by
        intro t ht hrest
        have ih := openParams_silent hh hrest
        simp only [List.map_cons, Ty.allProper, ih.1, ih.2, ht, Bool.and_self, and_self]
      simp only [openParams] at h ⊢
      cases hw : p.ty.map typeOf with
      | some t =>
          simp only [hw, pure_bind, Report.findings_bind, Report.findings_pure,
            List.append_nil] at h
          obtain ⟨w, -, rfl⟩ := Option.map_eq_some_iff.1 hw
          exact hcons _ (proper_typeOf w) h
      | none =>
          simp only [hw] at h
          cases hpar : hint.param? i with
          | none => simp [hpar, reject] at h
          | some t =>
              simp only [hpar, pure_bind, Report.findings_bind, Report.findings_pure,
                List.append_nil] at h
              exact hcons t (hh.param hpar) h

theorem allProper_params (ps : List Source.Param) :
    Ty.allProper ((params ps).map Typed.Param.ty) = true := by
  rw [Ty.allProper_iff]
  intro t ht
  simp only [params, List.map_map, List.mem_map] at ht
  obtain ⟨p, -, rfl⟩ := ht
  exact proper_typeOf p.ty

theorem name_params (ps : List Source.Param) :
    (params ps).map Typed.Param.name = ps.map Source.Param.name := by
  simp [params]

/-! ## Statements -/

/-- Returned values that are accepted silently stand for the expected results. -/
theorem returned_of_silent {rs : List Ty} {es : List Typed.Expr}
    (hes : ∀ e ∈ es, e.ty.proper = true) (h : (return_ rs es span).findings = []) :
    returned rs es = rs := by
  -- no type that is returned is poison, so the report is not left out on its account
  have hproper : ∀ t ∈ returned rs es, t ≠ .poison := by
    intro t ht
    unfold returned at ht
    split at ht
    · rename_i v
      have hv := hes v (by simp)
      split at ht
      · exact Ty.ne_poison_of_proper
          ((Ty.allSimple_iff _).1 (Ty.allSimple_toResults hv) t ht).1
      · rw [List.mem_singleton] at ht
        rw [ht]
        exact Ty.ne_poison_of_proper hv
    · obtain ⟨e, he, rfl⟩ := List.mem_map.1 ht
      exact Ty.ne_poison_of_proper (hes e he)
  have hany : ¬ ((returned rs es).any fun t => t = .poison) = true := by
    rw [List.any_eq_true]
    rintro ⟨t, ht, hp⟩
    exact hproper t ht (by simpa using hp)
  unfold return_ at h
  rw [if_neg hany] at h
  split at h
  · simp [reject] at h
  · rename_i hlen
    have hlen' : rs.length = (returned rs es).length := (not_not.1 hlen).symm
    split at h
    · simp [reject] at h
    · rename_i hfind
      rw [List.find?_eq_none] at hfind
      refine List.ext_getElem hlen'.symm fun i h₁ h₂ => ?_
      have hmem : (rs[i], (returned rs es)[i]) ∈ rs.zip (returned rs es) := by
        rw [List.mem_iff_getElem]
        exact ⟨i, by simp [h₁, h₂], by simp⟩
      have hsame := hfind _ hmem
      simp only [ne_eq, decide_not, Bool.not_eq_true', decide_eq_false_iff_not, not_not] at hsame
      exact hsame.symm

theorem assignment_silent {x : String} {e : Typed.Expr} (henv : env.Proper)
    (hx : x ∈ env.scope.names → x ∈ alive) (hp : e.ty.proper = true)
    (h : (assignment (env.local? x) x e span).findings = []) :
    x ∈ alive ∧ env.scope.lookup x = some e.ty := by
  unfold assignment at h
  cases hl : env.local? x with
  | none => simp [hl, reject] at h
  | some l =>
      simp only [hl] at h
      split at h
      · simp [reject] at h
      · simp only [Report.findings_bind, List.append_eq_nil_iff] at h
        have hlookup : env.scope.lookup x = some l.ty := by rw [Env.lookup_scope, hl]; rfl
        have heq := eq_of_expect (henv.locals.lookup hlookup) hp h.1
        exact ⟨hx (Env.mem_names_of_local hl), by rw [hlookup, heq]⟩

theorem declaration_silent {x : String} {written : Option Source.TypeExpr} {e : Typed.Expr}
    (hp : e.ty.proper = true) (h : (declaration x (written.map typeOf) e).findings = []) :
    (declaration x (written.map typeOf) e).value = e.ty := by
  cases written with
  | none => rfl
  | some w =>
      simp only [Option.map_some, declaration, Report.findings_bind, List.append_eq_nil_iff] at h
      exact eq_of_expect (proper_typeOf w) hp h.1

end Rivulet.Check
