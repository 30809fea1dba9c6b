import Rivulet.Proofs.Check.Places
import Rivulet.Proofs.Check.Soundness
import Rivulet.Proofs.Typing.Faithful

set_option autoImplicit false

/-! # The checking rules keep types faithful

A checked tree is faithful if every type that is written in it is, and if the type of each call is made
from the results of its callee. There is one lemma for each rule of the checker: from faithful parts, a
rule that reports nothing builds something faithful.

A call with a rejected callee or argument is rejected itself, so nothing is asked of its type. -/

namespace Rivulet.Typed

/-! ## Faithful trees -/

/-- The type of a call is made from the results of its callee, unless the callee or an argument was
rejected. -/
def Node.CallAgrees : Node → Prop
  | .expr (.call f as i) => (∀ a ∈ as, a.ty ≠ .poison) → f.ty ≠ .poison →
      ∃ ps rs, f.ty = .func ps rs ∧ i.ty = .ofResults rs
  | _ => True

/-- The types at a place are faithful, and if the place is a call, its type agrees with its callee. -/
structure Node.Faithful (rejected : Prop) (n : Node) : Prop where
  types : ∀ t ∈ n.types, t.Faithful rejected
  call : n.CallAgrees

/-- Every place in an expression is faithful. -/
def Expr.Faithful (rejected : Prop) (e : Expr) : Prop := ∀ n ∈ e.nodes, n.Faithful rejected

/-- Every place in a statement is faithful. -/
def Stmt.Faithful (rejected : Prop) (s : Stmt) : Prop := ∀ n ∈ s.nodes, n.Faithful rejected

section Faithful

variable {rejected : Prop}

theorem Expr.Faithful.ty {e : Expr} (h : e.Faithful rejected) : e.ty.Faithful rejected :=
  (h _ e.mem_nodes_self).types _ e.ty_mem_types

theorem Expr.faithful_nodesList {es : List Expr} (h : ∀ e ∈ es, e.Faithful rejected) :
    ∀ n ∈ Expr.nodesList es, n.Faithful rejected := by
  intro n hn
  obtain ⟨e, he, hn⟩ := Expr.mem_nodesList.1 hn
  exact h e he n hn

theorem Stmt.faithful_nodesBlock {ss : List Stmt} (h : ∀ s ∈ ss, s.Faithful rejected) :
    ∀ n ∈ Stmt.nodesBlock ss, n.Faithful rejected := by
  intro n hn
  obtain ⟨s, hs, hn⟩ := Stmt.mem_nodesBlock.1 hn
  exact h s hs n hn

/-- An expression that is neither a call nor a closure. -/
theorem Expr.Faithful.plain {e : Expr} {ns : List Node} (heq : e.nodes = .expr e :: ns)
    (htypes : (Node.expr e).types = [e.ty]) (hcall : (Node.expr e).CallAgrees)
    (hty : e.ty.Faithful rejected) (hns : ∀ n ∈ ns, n.Faithful rejected) : e.Faithful rejected := by
  have hhead : Node.Faithful rejected (.expr e) := by
    refine ⟨?_, hcall⟩
    rw [htypes]
    exact List.forall_mem_singleton.2 hty
  rw [Expr.Faithful, heq]
  exact List.forall_mem_cons.2 ⟨hhead, hns⟩

/-- An expression without parts. -/
theorem Expr.Faithful.leaf {e : Expr} (heq : e.nodes = [.expr e])
    (htypes : (Node.expr e).types = [e.ty]) (hcall : (Node.expr e).CallAgrees)
    (hty : e.ty.Faithful rejected) : e.Faithful rejected :=
  .plain heq htypes hcall hty (by simp)

theorem Expr.Faithful.call {f : Expr} {as : List Expr} {i : Info} (hf : f.Faithful rejected)
    (has : ∀ a ∈ as, a.Faithful rejected) (hty : i.ty.Faithful rejected)
    (hagrees : (Node.expr (.call f as i)).CallAgrees) : (Expr.call f as i).Faithful rejected := by
  have hhead : Node.Faithful rejected (.expr (.call f as i)) :=
    ⟨List.forall_mem_singleton.2 hty, hagrees⟩
  rw [Expr.Faithful, Expr.nodes]
  exact List.forall_mem_cons.2
    ⟨hhead, List.forall_mem_append.2 ⟨hf, Expr.faithful_nodesList has⟩⟩

/-- A statement that declares nothing. -/
theorem Stmt.Faithful.plain {s : Stmt} {ns : List Node} (heq : s.nodes = .stmt s :: ns)
    (htypes : (Node.stmt s).types = []) (hns : ∀ n ∈ ns, n.Faithful rejected) :
    s.Faithful rejected := by
  have hhead : Node.Faithful rejected (.stmt s) := by
    refine ⟨?_, trivial⟩
    rw [htypes]
    simp
  rw [Stmt.Faithful, heq]
  exact List.forall_mem_cons.2 ⟨hhead, hns⟩

theorem Stmt.Faithful.declare {c : Bool} {x : String} {t : Ty} {e : Expr} {s : Span}
    (ht : t.Faithful rejected) (he : e.Faithful rejected) :
    (Stmt.declare c x t e s).Faithful rejected := by
  have hhead : Node.Faithful rejected (.stmt (.declare c x t e s)) :=
    ⟨List.forall_mem_singleton.2 ht, trivial⟩
  rw [Stmt.Faithful, Stmt.nodes]
  exact List.forall_mem_cons.2 ⟨hhead, he⟩

theorem Stmt.Faithful.some {s : Stmt} (h : s.Faithful rejected) :
    ∀ s' ∈ Option.some s, s'.Faithful rejected := by
  rintro s' ⟨⟩
  exact h

end Faithful

end Rivulet.Typed

namespace Rivulet.Check

open Typing (expect)

variable {rejected : Prop} {env : Env} {hint : Hint} {span : Span}

/-! ## What is known at a point of a program -/

/-- All types that are known at a point of a program are faithful. -/
structure Env.Faithful (rejected : Prop) (env : Env) : Prop where
  functions : ∀ p ∈ env.functions, (Ty.func p.2.params p.2.results).Faithful rejected
  locals : ∀ p ∈ env.locals, p.2.ty.Faithful rejected
  results : ∀ t ∈ env.results, t.Faithful rejected

theorem Env.Faithful.local? (h : env.Faithful rejected) {x : String} {l : Local}
    (hl : env.local? x = some l) : l.ty.Faithful rejected := by
  obtain ⟨l₁, l₂, heq, -⟩ := List.lookup_eq_some_iff.1 hl
  exact h.locals (x, l) (by rw [heq]; simp)

theorem Env.Faithful.function (h : env.Faithful rejected) {f : String} {sig : Signature}
    (hf : env.functions.lookup f = some sig) : (Ty.func sig.params sig.results).Faithful rejected := by
  obtain ⟨l₁, l₂, heq, -⟩ := List.lookup_eq_some_iff.1 hf
  exact h.functions (f, sig) (by rw [heq]; simp)

theorem Env.Faithful.declare (h : env.Faithful rejected) (x : String) {l : Local}
    (hl : l.ty.Faithful rejected) : (env.declare x l).Faithful rejected where
  functions := h.functions
  locals := List.forall_mem_cons.2 ⟨hl, h.locals⟩
  results := h.results

theorem Env.Faithful.declareParams {ps : List Typed.Param}
    (hps : ∀ p ∈ ps, p.ty.Faithful rejected) (h : env.Faithful rejected) :
    (env.declareParams (declarations ps)).Faithful rejected := by
  induction ps generalizing env with
  | nil => exact h
  | cons p ps ih =>
      obtain ⟨hp, hps⟩ := List.forall_mem_cons.1 hps
      exact ih hps (h.declare p.name (l := ⟨p.ty, false⟩) hp)

/-- The types that a hint gives are faithful. -/
structure Hint.Faithful (rejected : Prop) (hint : Hint) : Prop where
  expected : ∀ t, hint.expected? = some t → t.Faithful rejected
  param : ∀ i t, hint.param? i = some t → t.Faithful rejected

theorem Hint.faithful_none : Hint.none.Faithful rejected := by
  constructor
  · intro t ht
    cases ht
  · intro i t ht
    cases ht

theorem Hint.faithful_ofOption {o : Option Ty} (h : ∀ t, o = some t → t.Faithful rejected) :
    (Hint.ofOption o).Faithful rejected := by
  cases o with
  | none => exact Hint.faithful_none
  | some t =>
      have ht := h t rfl
      refine ⟨fun u hu => ?_, fun i u hu => ?_⟩
      · cases hu
        exact ht
      · cases t with
        | func ps rs => exact (Ty.faithful_func.1 ht).1 u (List.mem_of_getElem? hu)
        | poison =>
            cases hu
            exact ht
        | _ => simp [Hint.ofOption, Hint.param?] at hu

theorem Hint.faithful_mapOver {t : Ty} (ht : t.Faithful rejected)
    (hseq : t.element? = Option.none → rejected) : (Hint.mapOver t).Faithful rejected := by
  constructor
  · intro u hu
    cases hu
  · intro i u hu
    rw [Hint.param?, Option.some.injEq] at hu
    rw [← hu]
    cases he : t.element? with
    | none => exact Ty.faithful_poison.2 (hseq he)
    | some e => exact Ty.faithful_element ht he

/-- The hint for the elements of a sequence. -/
theorem Hint.Faithful.element (h : hint.Faithful rejected) :
    (Hint.ofOption (hint.expected?.bind Ty.element?)).Faithful rejected := by
  refine Hint.faithful_ofOption fun t ht => ?_
  obtain ⟨u, hu, hut⟩ := Option.bind_eq_some_iff.1 ht
  exact Ty.faithful_element (h.expected u hu) hut

theorem faithful_typeOf (t : Source.TypeExpr) : (typeOf t).Faithful rejected :=
  Ty.faithful_of_proper (proper_typeOf t)

theorem faithful_params (ps : List Source.Param) : ∀ p ∈ params ps, p.ty.Faithful rejected := by
  intro p hp
  obtain ⟨q, -, rfl⟩ := List.mem_map.1 hp
  exact faithful_typeOf q.ty

/-! ## The rules -/

/-- A comparison about which nothing is reported says that nothing was found wrong. -/
theorem value_of_expect {place : Typing.Place} {e f : Ty}
    (h : (expect place e f span).findings = []) : (expect place e f span).value = true := by
  unfold expect at h ⊢
  split at h
  · rename_i hsame
    rw [if_pos hsame]
    rfl
  · simp at h

theorem literal_faithful (v : Source.Literal) : (literal v span).Faithful rejected := by
  cases v with
  | int n => exact .leaf rfl rfl trivial Ty.faithful_int
  | str s => exact .leaf rfl rfl trivial Ty.faithful_str
  | bool b => exact .leaf rfl rfl trivial Ty.faithful_bool

theorem name_faithful (henv : env.Faithful rejected) {x : String}
    (h : (name env x span).findings = []) : (name env x span).value.Faithful rejected := by
  unfold name Env.meaning at h ⊢
  cases hl : env.local? x with
  | some l => exact .leaf rfl rfl trivial (henv.local? hl)
  | none =>
      simp only [hl] at h
      cases hf : env.functions.lookup x with
      | some sig => exact .leaf rfl rfl trivial (henv.function hf)
      | none =>
          simp only [hf] at h
          cases hb : Builtin.ofName? x with
          | none => simp [hb, reject] at h
          | some b =>
              simp only [hb] at h
              cases b with
              | str =>
                  refine .leaf rfl rfl trivial (Ty.faithful_func.2 ⟨?_, ?_⟩)
                  · exact List.forall_mem_singleton.2 Ty.faithful_int
                  · exact List.forall_mem_singleton.2 ⟨Ty.faithful_str, rfl⟩
              | len => simp [Builtin.valueType?, reject] at h
              | println => simp [Builtin.valueType?, reject] at h

theorem untypedEmpty_faithful (hh : hint.Faithful rejected)
    (h : (untypedEmpty hint span).findings = []) :
    (untypedEmpty hint span).value.Faithful rejected := by
  unfold untypedEmpty at h ⊢
  split at h
  · exact .leaf rfl rfl trivial (hh.expected _ rfl)
  · exact .leaf rfl rfl trivial (hh.expected _ rfl)
  · simp [reject] at h

theorem unary_faithful {op : UnaryOp} {e : Typed.Expr} (he : e.Faithful rejected)
    (h : (unary op e span).findings = []) : (unary op e span).value.Faithful rejected := by
  unfold unary at h ⊢
  split at h
  · rename_i hp
    rw [if_pos hp]
    exact .plain rfl rfl trivial (hp ▸ he.ty) he
  · rename_i hp
    rw [if_neg hp]
    split at h
    · rename_i hop
      rw [if_pos hop]
      exact .plain rfl rfl trivial (hop ▸ he.ty) he
    · simp [reject] at h

theorem binary_faithful {op : BinaryOp} {l r : Typed.Expr} (hl : l.Faithful rejected)
    (hr : r.Faithful rejected) (h : (binary op l r span).findings = []) :
    (binary op l r span).value.Faithful rejected := by
  unfold binary at h ⊢
  cases hc : Typing.checkBinary op.rule l.ty r.ty with
  | ok t =>
      exact .plain rfl rfl trivial (Typing.faithful_of_checkBinary hl.ty hr.ty hc)
        (List.forall_mem_append.2 ⟨hl, hr⟩)
  | error f => simp [hc] at h

theorem seq_faithful {first : Typed.Expr} {rest : List Typed.Expr}
    (hes : ∀ e ∈ first :: rest, e.Faithful rejected) (h : (seq first rest span).findings = []) :
    (seq first rest span).value.Faithful rejected := by
  have hnodes := Typed.Expr.faithful_nodesList hes
  unfold seq at h ⊢
  split at h
  · rename_i hany
    rw [if_pos hany]
    obtain ⟨e, he, hp⟩ := List.any_eq_true.1 hany
    exact .plain rfl rfl trivial (of_decide_eq_true hp ▸ (hes e he).ty) hnodes
  · rename_i hany
    rw [if_neg hany]
    simp only [Report.findings_bind, List.append_eq_nil_iff] at h
    simp only [Report.value_bind, Report.value_pure, (sameElements_silent h.1).1, if_true]
    exact .plain rfl rfl trivial (Ty.faithful_seq.2 (hes first (by simp)).ty) hnodes

theorem index_faithful {e i : Typed.Expr} (he : e.Faithful rejected) (hi : i.Faithful rejected)
    (h : (index e i span).findings = []) : (index e i span).value.Faithful rejected := by
  have hnodes := List.forall_mem_append.2 ⟨he, hi⟩
  unfold index at h ⊢
  split at h
  · rename_i hp
    rw [if_pos hp]
    have hty : Ty.poison.Faithful rejected := by
      rcases hp with hp | hp
      · exact hp ▸ he.ty
      · exact hp ▸ hi.ty
    exact .plain rfl rfl trivial hty hnodes
  · rename_i hp
    rw [if_neg hp]
    cases ht : e.ty.element? with
    | some t =>
        simp only [ht, Report.findings_bind, List.append_eq_nil_iff] at h
        simp only [Report.value_bind, Report.value_pure, value_of_expect h.1, if_true]
        exact .plain rfl rfl trivial (Ty.faithful_element he.ty ht) hnodes
    | none => simp [ht, reject] at h

/-! ### Calls -/

theorem value_of_arguments :
    ∀ {as : List Typed.Expr} {ps : List Ty} {n : Nat},
      (arguments n as ps).findings = [] → (arguments n as ps).value = true
  | [], _, _, _ => rfl
  | _ :: _, [], _, _ => rfl
  | a :: as, p :: ps, n, h => by
      simp only [arguments, Report.findings_bind, List.append_eq_nil_iff] at h
      simp only [arguments, Report.value_bind, Report.value_pure, value_of_expect h.1,
        value_of_arguments h.2.1, Bool.and_self]

/-- A callee about which nothing is reported was rejected, or it is a function. -/
theorem signature?_cases {f : Typed.Expr} (h : (signature? f).findings = []) :
    (f.ty = .poison ∧ (signature? f).value = none) ∨
      ∃ ps rs, f.ty = .func ps rs ∧ (signature? f).value = some ⟨ps, rs⟩ := by
  unfold signature? at h ⊢
  cases hty : f.ty with
  | func ps rs => exact Or.inr ⟨ps, rs, rfl, rfl⟩
  | poison => exact Or.inl ⟨rfl, rfl⟩
  | _ => simp [hty, reject] at h

theorem call_faithful {f : Typed.Expr} {as : List Typed.Expr} (hf : f.Faithful rejected)
    (has : ∀ a ∈ as, a.Faithful rejected) (hsig : (signature? f).findings = [])
    (h : (call f (signature? f).value as span).findings = []) :
    (call f (signature? f).value as span).value.Faithful rejected := by
  rcases signature?_cases hsig with ⟨hty, hnone⟩ | ⟨ps, rs, hty, hsome⟩
  · rw [hnone]
    exact .call hf has (hty ▸ hf.ty) fun _ hne => absurd hty hne
  · rw [hsome] at h ⊢
    unfold call at h ⊢
    dsimp only at h ⊢
    split at h
    · simp [reject] at h
    · rename_i hlen
      rw [if_neg hlen]
      simp only [Report.findings_bind, List.append_eq_nil_iff] at h
      simp only [Report.value_bind, Report.value_pure, value_of_arguments h.1, Bool.true_and]
      cases hany : as.any fun a => a.ty = .poison with
      | true =>
          obtain ⟨a, ha, hp⟩ := List.any_eq_true.1 hany
          have hp := of_decide_eq_true hp
          exact .call hf has (hp ▸ (has a ha).ty) fun hne _ => absurd hp (hne a ha)
      | false =>
          have hres := Ty.faithful_ofResults (Ty.faithful_func.1 (hty ▸ hf.ty)).2
          exact .call hf has hres fun _ _ => ⟨ps, rs, hty, rfl⟩

theorem specialCall_faithful {b : Builtin} {calleeSpan : Span} {as : List Typed.Expr}
    (has : ∀ a ∈ as, a.Faithful rejected) (h : (specialCall b calleeSpan as span).findings = []) :
    (specialCall b calleeSpan as span).value.Faithful rejected := by
  have hres : ∀ r ∈ specialResults b, r.Faithful rejected ∧ r.isSimple = true := by
    cases b <;> simp [specialResults, Ty.isSimple]
  have hf : (Typed.Expr.builtin b
      ⟨.func (as.map Typed.Expr.ty) (specialResults b), calleeSpan⟩).Faithful rejected := by
    refine .leaf rfl rfl trivial (Ty.faithful_func.2 ⟨fun t ht => ?_, hres⟩)
    obtain ⟨a, ha, rfl⟩ := List.mem_map.1 ht
    exact (has a ha).ty
  simp only [specialCall, Report.findings_bind, List.append_eq_nil_iff] at h
  simp only [specialCall, Report.value_bind, Report.value_pure]
  have h := h.1
  rcases as with _ | ⟨a, _ | ⟨b', as⟩⟩
  · simp [specialType, reject] at h
  · simp only [specialType] at h ⊢
    split at h
    · rename_i hp
      rw [if_pos hp]
      exact .call hf has (hp ▸ (has a (by simp)).ty) fun hne _ => absurd hp (hne a (by simp))
    · rename_i hp
      rw [if_neg hp]
      split at h
      · simp [reject] at h
      · rename_i hnot
        rw [if_neg hnot]
        exact .call hf has (Ty.faithful_ofResults hres) fun _ _ => ⟨_, _, rfl, rfl⟩
  · simp [specialType, reject] at h

/-! ### Closures -/

theorem openParams_faithful (hh : hint.Faithful rejected) :
    ∀ {ps : List Source.OpenParam} {i : Nat}, (openParams hint i ps).findings = [] →
      ∀ p ∈ (openParams hint i ps).value, p.ty.Faithful rejected
  | [], _, _ => by simp [openParams]
  | p :: ps, i, h => by
      simp only [openParams] at h ⊢
      cases hw : p.ty.map typeOf with
      | some t =>
          simp only [hw, pure_bind, Report.findings_bind, Report.findings_pure,
            List.append_nil] at h
          obtain ⟨w, -, rfl⟩ := Option.map_eq_some_iff.1 hw
          exact List.forall_mem_cons.2 ⟨faithful_typeOf w, openParams_faithful hh h⟩
      | none =>
          simp only [hw] at h
          cases hpar : hint.param? i with
          | none => simp [hpar, reject] at h
          | some t =>
              simp only [hpar, pure_bind, Report.findings_bind, Report.findings_pure,
                List.append_nil] at h
              exact List.forall_mem_cons.2 ⟨hh.param i t hpar, openParams_faithful hh h⟩

theorem closure_faithful {ps : List Typed.Param} {rs : List Ty} {b : List Typed.Stmt}
    {cs : List String} (hps : ∀ p ∈ ps, p.ty.Faithful rejected)
    (hrs : ∀ r ∈ rs, r.Faithful rejected ∧ r.isSimple = true)
    (hb : ∀ s ∈ b, s.Faithful rejected) : (closure ps rs b cs span).Faithful rejected := by
  have hty : (Ty.func (ps.map Typed.Param.ty) rs).Faithful rejected := by
    refine Ty.faithful_func.2 ⟨fun t ht => ?_, hrs⟩
    obtain ⟨p, hp, rfl⟩ := List.mem_map.1 ht
    exact hps p hp
  have hhead : Typed.Node.Faithful rejected (.expr (closure ps rs b cs span)) :=
    ⟨List.forall_mem_cons.2 ⟨hty, List.forall_mem_singleton.2 hty⟩, trivial⟩
  rw [Typed.Expr.Faithful, closure, Typed.Expr.nodes]
  exact List.forall_mem_cons.2 ⟨hhead, Typed.Stmt.faithful_nodesBlock hb⟩

theorem lambda_faithful {ps : List Typed.Param} {v : Typed.Expr} {cs : List String}
    (hps : ∀ p ∈ ps, p.ty.Faithful rejected) (hv : v.Faithful rejected) :
    (lambda ps v cs span).Faithful rejected := by
  unfold lambda
  split
  · refine closure_faithful hps (by simp) (List.forall_mem_singleton.2 ?_)
    exact .plain rfl rfl hv
  · refine closure_faithful hps (Ty.faithful_toResults hv.ty) (List.forall_mem_singleton.2 ?_)
    exact .plain rfl rfl (Typed.Expr.faithful_nodesList (List.forall_mem_singleton.2 hv))

/-- A sequence stands to the left of a map that is accepted, or that operand was rejected. -/
theorem rejected_of_binary_map {l r : Typed.Expr} (hl : l.ty.Faithful rejected)
    (hr : r.ty ≠ .poison) (h : (binary .map l r span).findings = [])
    (hnone : l.ty.element? = none) : rejected := by
  rcases binary_map_silent h with hp | hp | ⟨e, he⟩
  · exact Ty.faithful_poison.1 (hp ▸ hl)
  · exact absurd hp hr
  · simp [he, Ty.element?] at hnone

end Rivulet.Check
