import Rivulet.Proofs.Code.Generation
import Rivulet.Proofs.Code.SettledMaps
import Rivulet.Proofs.Code.SilentValidation
import Rivulet.Proofs.Lowering.Calls
import Rivulet.Proofs.Lowering.Success

set_option autoImplicit false

/-! # Lowering keeps code settled

A module that a silent validation has left without an invalid type is settled. Giving facts to its
maps keeps it so and makes the maps ready, so lowering succeeds; and what lowering makes of settled
code is settled again, by a walk over the code. Hence validation has nothing to say about the lowered
module and nothing to change in it.

The table of locals grows while a function is lowered, and the lowered code is judged in the table at
the end of it. The walk fixes this last table and asks of every step only that its own table is a part
of it. -/

namespace Rivulet.Ir

open Validate (Scene)

namespace Lowering

/-! ## Pieces of lowered code

All of them are judged in the scene `fin` at the end of lowering. -/

section Pieces

variable {fin : Scene} {st st' : State}

/-- The table before a step is a part of whatever the table after it is a part of. -/
theorem Lowers.le_of_le {α : Type} {x : Lower α} {a : α} {ctx : Context} (h : Lowers x st a st')
    (hx : Grows x) (hle : st'.ctx.Le ctx) : st.ctx.Le ctx :=
  (h.addsTemps hx).le.trans hle

/-- Hoisted statements are settled. They hold no `return`, so it does not matter in which function or
closure they stand. -/
def SettledHoist (fin : Scene) (h : List Stmt) : Prop := ∀ rs, Stmt.SettledBlock fin rs h

theorem SettledHoist.nil : SettledHoist fin [] := fun _ => trivial

theorem SettledHoist.append {h h' : List Stmt} (hh : SettledHoist fin h)
    (hh' : SettledHoist fin h') : SettledHoist fin (h ++ h') :=
  fun rs => (Stmt.settledBlock_append h h').2 ⟨hh rs, hh' rs⟩

theorem SettledHoist.cons {s : Stmt} {h : List Stmt} (hs : ∀ rs, s.Settled fin rs)
    (hh : SettledHoist fin h) : SettledHoist fin (s :: h) :=
  fun rs => ⟨hs rs, hh rs⟩

/-- What is hoisted and what is left of an expression of type `t`. -/
structure Hoists (fin : Scene) (t : Ty) (h : List Stmt) (e : Expr) : Prop where
  hoisted : SettledHoist fin h
  settled : e.Settled fin
  ty_eq : e.ty = t

theorem typeOf_freshTemp {hint : String} {t : Ty} {x : LocalId}
    (h : Lowers (freshTemp hint t) st x st') (hle : st'.ctx.Le fin.ctx) :
    fin.ctx.Knows x ∧ fin.ctx.typeOf x = t := by
  have heq : ((Except.ok (st.ctx.freshTemp hint t).1, { st with ctx := (st.ctx.freshTemp hint t).2 })
      : Except Breach LocalId × State) = (.ok x, st') := h
  simp only [Prod.mk.injEq, Except.ok.injEq] at heq
  obtain ⟨rfl, rfl⟩ := heq
  have hget : fin.ctx.get? (st.ctx.freshTemp hint t).1
      = some ⟨"$" ++ hint ++ toString st.ctx.nextTemp, t, true⟩ := by
    refine hle _ _ ?_
    simp [Context.get?, Context.freshTemp]
  refine ⟨Context.knows_iff.2 ⟨_, hget⟩, ?_⟩
  simp only [Context.typeOf, hget, Option.map_some, Option.getD_some]

theorem settled_bindTemp {hint : String} {e d : Expr} {s : Stmt} (he : e.Settled fin)
    (h : Lowers (bindTemp hint e) st (s, d) st') (hle : st'.ctx.Le fin.ctx) :
    Hoists fin e.ty [s] d := by
  obtain ⟨x, st₁, hx, h⟩ := h.bind_inv
  obtain ⟨heq, rfl⟩ := h.pure_inv
  cases heq
  obtain ⟨hknown, hty⟩ := typeOf_freshTemp hx hle
  exact ⟨.cons (fun _ => ⟨he, hknown, hty.symm⟩) .nil, ⟨hknown, hty.symm, he.valid⟩, rfl⟩

theorem settled_spillBefore {later s : List Stmt} {e d : Expr} (he : e.Settled fin)
    (h : Lowers (spillBefore later e) st (s, d) st') (hle : st'.ctx.Le fin.ctx) :
    Hoists fin e.ty s d := by
  rcases spillBefore_steps h with ⟨rfl, rfl, rfl, -⟩ | ⟨b, rfl, hbind, -, -⟩
  · exact ⟨.nil, he, rfl⟩
  · exact settled_bindTemp he hbind hle

theorem settled_negate {e : Expr} (he : e.Settled fin) (hty : e.ty = .bool) :
    (negate e).Settled fin := ⟨he, hty, rfl⟩

theorem settled_shortCircuit {op : BinaryOp} {l r d : Expr} {h h' : List Stmt}
    (hl : l.Settled fin) (hlt : l.ty = .bool) (hr : Hoists fin .bool h r)
    (hs : Lowers (shortCircuit op l h r) st (h', d) st') (hle : st'.ctx.Le fin.ctx) :
    Hoists fin .bool h' d := by
  obtain ⟨x, st₁, hx, hs⟩ := hs.bind_inv
  obtain ⟨heq, rfl⟩ := hs.pure_inv
  cases heq
  obtain ⟨hknown, hty⟩ := typeOf_freshTemp hx hle
  have hcurrent : (Expr.local x ⟨.bool, l.span⟩).Settled fin := ⟨hknown, hty.symm, rfl⟩
  have htest : (if op = .and then .local x ⟨.bool, l.span⟩
      else negate (.local x ⟨.bool, l.span⟩) : Expr).Settled fin ∧
      (if op = .and then .local x ⟨.bool, l.span⟩
        else negate (.local x ⟨.bool, l.span⟩) : Expr).ty = .bool := by
    split
    · exact ⟨hcurrent, rfl⟩
    · exact ⟨settled_negate hcurrent rfl, rfl⟩
  have hassign : SettledHoist fin [.assign x r] :=
    .cons (fun _ => ⟨hr.settled, hknown, hr.ty_eq.trans hty.symm⟩) .nil
  refine ⟨.cons (fun _ => ⟨hl, hknown, hlt.trans hty.symm⟩) (.cons (fun rs => ?_) .nil), hcurrent, rfl⟩
  exact ⟨htest.1, htest.2, hr.hoisted.append hassign rs, trivial⟩

theorem settled_mapLoop {site : Site} {result element : Ty} {i : Info} {seq fn d : Expr}
    {h : List Stmt} (hseq : seq.Settled fin) (hseqt : seq.ty = .slice element)
    (hfn : fn.Settled fin) (hfnt : fn.ty = .func [element] [result]) (hi : i.ty = .slice result)
    (hl : Lowers (mapLoop site result element i seq fn) st (h, d) st')
    (hle : st'.ctx.Le fin.ctx) : Hoists fin i.ty h d := by
  obtain ⟨⟨bindLen, len⟩, st₁, hlen, hl⟩ := hl.bind_inv
  obtain ⟨⟨bindOut, out⟩, st₂, hout, hl⟩ := hl.bind_inv
  obtain ⟨x, st₃, hx, hl⟩ := hl.bind_inv
  obtain ⟨u, st₄, hcount, hl⟩ := hl.bind_inv
  obtain ⟨heq, rfl⟩ := hl.pure_inv
  cases heq
  have hle₃ : st₃.ctx.Le fin.ctx := hcount.le_of_le (fun st => .refl st.ctx) hle
  have hle₂ : st₂.ctx.Le fin.ctx := hx.le_of_le (grows_freshTemp _ _) hle₃
  have hle₁ : st₁.ctx.Le fin.ctx := hout.le_of_le (grows_bindTemp _ _) hle₂
  -- the result is allocated at the type that the callable gives, which is valid since the callable is settled
  have hresult : result.hasInvalid = false := by
    have hv := hfn.valid
    rw [hfnt] at hv
    simp only [Ty.hasInvalid, Ty.anyInvalid, Bool.or_false, Bool.or_eq_false_iff] at hv
    exact hv.2
  have hlen := settled_bindTemp (e := .len seq ⟨.i64, i.span⟩) ⟨hseq, ⟨_, hseqt⟩, rfl⟩ hlen hle₁
  have hout := settled_bindTemp (e := .alloc result len site i) ⟨hlen.settled, hlen.ty_eq, hi, hresult⟩
    hout hle₂
  obtain ⟨hxk, hxt⟩ := typeOf_freshTemp hx hle₃
  -- the store of a round, from the inside out
  have hcounter : (Expr.local x ⟨.i64, i.span⟩).Settled fin := ⟨hxk, hxt.symm, rfl⟩
  have hitem : (Expr.index seq (.local x ⟨.i64, i.span⟩) .elided ⟨element, i.span⟩).Settled fin :=
    ⟨hseq, hcounter, hseqt, rfl⟩
  have hcall : (Expr.call fn [.index seq (.local x ⟨.i64, i.span⟩) .elided ⟨element, i.span⟩]
      ⟨result, i.span⟩).Settled fin :=
    ⟨⟨hitem, trivial⟩, .inr ⟨hfn, [result], hfnt, rfl⟩⟩
  have houtt : d.ty = .slice result := hout.ty_eq.trans hi
  have hstore : SettledHoist fin [.store d (.local x ⟨.i64, i.span⟩)
      (.call fn [.index seq (.local x ⟨.i64, i.span⟩) .elided ⟨element, i.span⟩] ⟨result, i.span⟩)
      .elided] :=
    .cons (fun _ => ⟨hout.settled, hcounter, hcall, houtt, rfl⟩) .nil
  have hfor : SettledHoist fin [.for x (.const (.int 0) ⟨.i64, i.span⟩) len
      [.store d (.local x ⟨.i64, i.span⟩)
        (.call fn [.index seq (.local x ⟨.i64, i.span⟩) .elided ⟨element, i.span⟩]
          ⟨result, i.span⟩) .elided]] :=
    .cons (fun rs => ⟨rfl, hlen.settled, rfl, hlen.ty_eq, hxk, hxt, hstore rs⟩) .nil
  exact ⟨hlen.hoisted.append (hout.hoisted.append hfor), hout.settled, hout.ty_eq⟩

theorem settled_loop {rs : List Ty} {h b : List Stmt} {c : Expr} (hc : Hoists fin .bool h c)
    (hb : Stmt.SettledBlock fin rs b) : (loop h c b).Settled fin rs := by
  unfold loop
  split
  · exact ⟨hc.settled, hc.ty_eq, hb⟩
  · have hleave : SettledHoist fin [.if (negate c) [.break] []] :=
      .cons (fun _ => ⟨settled_negate hc.settled hc.ty_eq, rfl, ⟨trivial, trivial⟩, trivial⟩) .nil
    exact ⟨rfl, rfl, (Stmt.settledBlock_append _ _).2 ⟨hc.hoisted.append hleave rs, hb⟩⟩

/-! ### Operands that wait

The callee of a call waits in front of the arguments, and `println` is legal there although it is not
settled by itself. It is stable, so it is never moved to a temporary. -/

theorem ne_println_of_settled {sc : Scene} {e : Expr} (he : e.Settled sc) (j : Info) :
    e ≠ .builtin .println j := by
  rintro rfl
  simp [Expr.Settled] at he

/-- An expression and what takes its place: something settled of the same type, or the same
`println`. -/
inductive StandsFor (fin : Scene) : Expr → Expr → Prop where
  | settled {e d : Expr} (ne : ∀ j, e ≠ .builtin .println j) (settled : d.Settled fin)
      (ty_eq : d.ty = e.ty) : StandsFor fin e d
  | println (j : Info) : StandsFor fin (.builtin .println j) (.builtin .println j)

theorem StandsFor.ty_eq {e d : Expr} (h : StandsFor fin e d) : d.ty = e.ty := by
  cases h with
  | settled _ _ hty => exact hty
  | println j => rfl

theorem StandsFor.settled_of_settled {sc : Scene} {e d : Expr} (h : StandsFor fin e d)
    (he : e.Settled sc) : d.Settled fin := by
  cases h with
  | settled _ hd _ => exact hd
  | println j => exact absurd rfl (ne_println_of_settled he j)

theorem StandsFor.eq_println {j : Info} {d : Expr} (h : StandsFor fin (.builtin .println j) d) :
    d = .builtin .println j := by
  cases h with
  | settled hne _ _ => exact absurd rfl (hne j)
  | println j => rfl

theorem standsFor_spillBefore {later s : List Stmt} {e d d' : Expr} (hd : StandsFor fin e d)
    (h : Lowers (spillBefore later d) st (s, d') st') (hle : st'.ctx.Le fin.ctx) :
    SettledHoist fin s ∧ StandsFor fin e d' := by
  cases hd with
  | settled hne hset hty =>
      have hs := settled_spillBefore hset h hle
      exact ⟨hs.hoisted, .settled hne hs.settled (hs.ty_eq.trans hty)⟩
  | println j =>
      rcases spillBefore_steps h with ⟨rfl, rfl, rfl, -⟩ | ⟨b, -, -, -, hstable⟩
      · exact ⟨.nil, .println j⟩
      · cases hstable

theorem standsFor_spillAllBefore {later : List Stmt} :
    ∀ {es ds ds' : List Expr} {s : List Stmt} {st st' : State},
      List.Forall₂ (StandsFor fin) es ds → Lowers (spillAllBefore later ds) st (s, ds') st' →
      st'.ctx.Le fin.ctx → SettledHoist fin s ∧ List.Forall₂ (StandsFor fin) es ds'
  | [], [], ds', s, st, st', _, h, _ => by
      obtain ⟨heq, -⟩ := h.pure_inv
      cases heq
      exact ⟨.nil, .nil⟩
  | e :: es, d :: ds, ds', s, st, st', .cons hd hds, h, hle => by
      obtain ⟨s₁, d₁, st₁, s₂, ds₂, h₁, h₂, rfl, rfl⟩ := spillAllBefore_cons_inv h
      have hle₁ := h₂.le_of_le (grows_spillAllBefore later ds) hle
      obtain ⟨hs₁, hd₁⟩ := standsFor_spillBefore hd h₁ hle₁
      obtain ⟨hs₂, hds₂⟩ := standsFor_spillAllBefore hds h₂ hle
      exact ⟨hs₁.append hs₂, .cons hd₁ hds₂⟩

theorem settledList_of_standsFor {sc : Scene} : ∀ {es ds : List Expr},
    List.Forall₂ (StandsFor fin) es ds → Expr.SettledList sc es →
    Expr.SettledList fin ds ∧ ds.map Expr.ty = es.map Expr.ty
  | [], [], _, _ => ⟨trivial, rfl⟩
  | e :: es, d :: ds, .cons hd hds, hes => by
      obtain ⟨hall, htypes⟩ := settledList_of_standsFor hds hes.2
      exact ⟨⟨hd.settled_of_settled hes.1, hall⟩,
        by rw [List.map_cons, List.map_cons, hd.ty_eq, htypes]⟩

/-! ### Operators -/

/-- What lowering makes of an expression is settled, provided its table is a part of the last one. -/
def Settles (fin : Scene) (e : Expr) : Prop :=
  ∀ {st st' : State} {h : List Stmt} {d : Expr}, Lowers (expr e) st (h, d) st' →
    st'.ctx.Le fin.ctx → Hoists fin e.ty h d

variable {l r : Expr} {common : Option Ty} {facts : Option MapFacts} {i : Info}

theorem Settles.map (hl : Settles fin l) (hr : Settles fin r)
    (hop : OperatorTy .map l.ty r.ty none i.ty) :
    Settles fin (.binary .map l r common facts i) := by
  intro st st' h d hlow hle
  obtain ⟨element, result, hlt, hrt, hi⟩ := hop.of_map
  cases map_steps hlow with
  | @intro _ result' element' _ _ _ _ _ _ _ _ _ _ _ _ _ hparts hll hseq hrl hfn hloop =>
  obtain ⟨rfl, rfl⟩ : result' = result ∧ element' = element := by
    obtain ⟨-, hi', hlt'⟩ := mapParts_ok_iff.1 hparts
    exact ⟨Ty.slice.inj (hi'.symm.trans hi), Ty.slice.inj (hlt'.symm.trans hlt)⟩
  have hle₄ := hloop.le_of_le (grows_mapLoop _ _ _ _ _ _) hle
  have hle₃ := hfn.le_of_le (grows_bindTemp _ _) hle₄
  have hle₂ := hrl.le_of_le (grows_expr r) hle₃
  have hle₁ := hseq.le_of_le (grows_bindTemp _ _) hle₂
  have hdl := hl hll hle₁
  have hseq := settled_bindTemp hdl.settled hseq hle₂
  have hdr := hr hrl hle₃
  have hfn := settled_bindTemp hdr.settled hfn hle₄
  have hout := settled_mapLoop hseq.settled (hseq.ty_eq.trans (hdl.ty_eq.trans hlt))
    hfn.settled (hfn.ty_eq.trans (hdr.ty_eq.trans hrt)) hi hloop hle
  exact ⟨(((hdl.hoisted.append hseq.hoisted).append hdr.hoisted).append hfn.hoisted).append
    hout.hoisted, hout.settled, hout.ty_eq⟩

/-- The operands of a logical operator and the operator itself are booleans. -/
theorem bool_of_logical {op : BinaryOp} (hop : OperatorTy op l.ty r.ty common i.ty)
    (hmap : op ≠ .map) (hlogic : op = .and ∨ op = .or) :
    l.ty = .bool ∧ r.ty = .bool ∧ i.ty = .bool := by
  rcases hop with ⟨hm, -⟩ | ⟨-, -, hlr, hh⟩
  · exact absurd hm hmap
  · obtain ⟨hlb, hib⟩ := Machine.homogeneous?_logic hlogic hh
    exact ⟨hlb, hlr.symm.trans hlb, hib⟩

theorem Settles.binary {op : BinaryOp} (hl : Settles fin l) (hr : Settles fin r) (hmap : op ≠ .map)
    (hop : OperatorTy op l.ty r.ty common i.ty) :
    Settles fin (.binary op l r common facts i) := by
  intro st st' h d hlow hle
  -- operands that keep their types keep the operator settled
  have hsame : ∀ {a b : Expr}, a.Settled fin → a.ty = l.ty → b.Settled fin → b.ty = r.ty →
      (Expr.binary op a b common facts i).Settled fin := by
    intro a b ha hat hb hbt
    simp only [Expr.Settled, hat, hbt, if_neg hmap]
    exact ⟨ha, hb, hop⟩
  cases operator_steps hmap hlow with
  | logical hlogic hll hrl =>
      have hdl := hl hll (hrl.le_of_le (grows_expr r) hle)
      have hdr := hr hrl hle
      exact ⟨hdl.hoisted, hsame hdl.settled hdl.ty_eq hdr.settled hdr.ty_eq, rfl⟩
  | shortCircuit hlogic hll hrl hshort =>
      obtain ⟨hlt, hrt, hi⟩ := bool_of_logical hop hmap hlogic
      have hle₂ := hshort.le_of_le (grows_shortCircuit _ _ _ _) hle
      have hdl := hl hll (hrl.le_of_le (grows_expr r) hle₂)
      have hdr := hr hrl hle₂
      have hout := settled_shortCircuit hdl.settled (hdl.ty_eq.trans hlt) (hrt ▸ hdr) hshort hle
      exact ⟨hdl.hoisted.append hout.hoisted, hout.settled, hout.ty_eq.trans hi.symm⟩
  | strict hstrict hll hrl hspill =>
      have hle₂ := hspill.le_of_le (grows_spillBefore _ _) hle
      have hdl := hl hll (hrl.le_of_le (grows_expr r) hle₂)
      have hdr := hr hrl hle₂
      have hdl' := settled_spillBefore hdl.settled hspill hle
      exact ⟨(hdl.hoisted.append hdl'.hoisted).append hdr.hoisted,
        hsame hdl'.settled (hdl'.ty_eq.trans hdl.ty_eq) hdr.settled hdr.ty_eq, rfl⟩

/-! ### Calls -/

/-- What lowering makes of expressions stands for them, behind what stands for earlier ones. -/
def AllSettle (fin : Scene) (es : List Expr) : Prop :=
  ∀ {pre done all : List Expr} {h : List Stmt} {st st' : State},
    List.Forall₂ (StandsFor fin) pre done → Lowers (exprs done es) st (h, all) st' →
    st'.ctx.Le fin.ctx → SettledHoist fin h ∧ List.Forall₂ (StandsFor fin) (pre ++ es) all

theorem Settles.call {sc : Scene} {f : Expr} {as : List Expr} {i : Info}
    (hs : (Expr.call f as i).Settled sc) (hf : f.Settled sc → Settles fin f)
    (has : AllSettle fin as) : Settles fin (.call f as i) := by
  intro st st' h d hl hle
  obtain ⟨hargs, hcase⟩ := hs
  obtain ⟨⟨h₁, df⟩, st₁, hfl, hl⟩ := hl.bind_inv
  obtain ⟨⟨h₂, ds⟩, st₂, hal, hl⟩ := hl.bind_inv
  have hst : st₂.ctx.Le fin.ctx := by
    refine hl.le_of_le ?_ hle
    dsimp only
    split <;> exact .pure _
  have hle₁ := hal.le_of_le (grows_exprs _ as) hst
  -- `println` as a callee has no type of its own, so it does not settle, but it stands for itself
  have hcallee : SettledHoist fin h₁ ∧ StandsFor fin f df := by
    rcases hcase with ⟨j, rfl, -⟩ | ⟨hset, -⟩
    · obtain ⟨heq, -⟩ := Lowers.pure_inv (c := ([], Expr.builtin .println j)) hfl
      cases heq
      exact ⟨.nil, .println j⟩
    · have hdf := hf hset hfl hle₁
      exact ⟨hdf.hoisted, .settled (ne_println_of_settled hset) hdf.settled hdf.ty_eq⟩
  obtain ⟨hh₂, hds⟩ := has (.cons hcallee.2 .nil) hal hst
  rw [List.singleton_append] at hds
  cases hds with
  | @cons _ df' _ das hdf' hdas =>
      obtain ⟨heq, rfl⟩ := hl.pure_inv
      cases heq
      obtain ⟨hset, htypes⟩ := settledList_of_standsFor hdas hargs
      have hlen : das.length = as.length := by
        simpa only [List.length_map] using congrArg List.length htypes
      refine ⟨hcallee.1.append hh₂, ?_, rfl⟩
      simp only [Expr.Settled, htypes, hlen]
      refine ⟨hset, ?_⟩
      rcases hcase with ⟨j, rfl, hone, hj, hi⟩ | ⟨hfs, rs, hty, hi⟩
      · exact .inl ⟨j, hdf'.eq_println, hone, hj, hi⟩
      · exact .inr ⟨hdf'.settled_of_settled hfs, rs, hdf'.ty_eq.trans hty, hi⟩

end Pieces

/-! ## The walk -/

section Walk

variable {sc fin : Scene}

mutual

theorem settled_expr (hsigs : fin.signatures = sc.signatures) (hctx : sc.ctx.Le fin.ctx) :
    ∀ {e d : Expr} {h : List Stmt} {st st' : State}, e.Settled sc →
    Lowers (expr e) st (h, d) st' → st'.ctx.Le fin.ctx → Hoists fin e.ty h d
  | .const c i, d, h, st, st', hs, hl, hle => by
      obtain ⟨heq, -⟩ := hl.pure_inv
      cases heq
      exact ⟨.nil, hs, rfl⟩
  | .local x i, d, h, st, st', hs, hl, hle => by
      obtain ⟨heq, -⟩ := hl.pure_inv
      cases heq
      obtain ⟨hx, hty, hvalid⟩ := hs
      exact ⟨.nil, ⟨hctx.knows hx, hty.trans (hctx.typeOf hx).symm, hvalid⟩, rfl⟩
  | .function f i, d, h, st, st', hs, hl, hle => by
      obtain ⟨heq, -⟩ := hl.pure_inv
      cases heq
      refine ⟨.nil, ?_, rfl⟩
      simp only [Expr.Settled, hsigs] at hs ⊢
      exact hs
  | .builtin b i, d, h, st, st', hs, hl, hle => by
      obtain ⟨heq, -⟩ := hl.pure_inv
      cases heq
      exact ⟨.nil, hs, rfl⟩
  | .unary op e i, d, h, st, st', hs, hl, hle => by
      obtain ⟨he, hop⟩ := hs
      obtain ⟨⟨h₁, d₁⟩, st₁, h₁l, hl⟩ := hl.bind_inv
      obtain ⟨heq, rfl⟩ := hl.pure_inv
      cases heq
      have hd := settled_expr hsigs hctx he h₁l hle
      exact ⟨hd.hoisted, ⟨hd.settled, hd.ty_eq ▸ hop⟩, rfl⟩
  | .binary op l r common facts i, d, h, st, st', hs, hl, hle => by
      obtain ⟨hls, hrs, hop⟩ := hs
      have hll : Settles fin l := fun hl hle => settled_expr hsigs hctx hls hl hle
      have hrl : Settles fin r := fun hl hle => settled_expr hsigs hctx hrs hl hle
      by_cases hmap : op = .map
      · subst hmap
        exact hll.map hrl hop hl hle
      · rw [if_neg hmap] at hop
        exact hll.binary hrl hmap hop hl hle
  | .call f as i, d, h, st, st', hs, hl, hle => by
      have hf (hfs : f.Settled sc) : Settles fin f :=
        fun hl hle => settled_expr hsigs hctx hfs hl hle
      have has : AllSettle fin as :=
        fun hdone hl hle => standsFor_exprs hsigs hctx hdone hs.1 hl hle
      exact Settles.call hs hf has hl hle
  | .index s p b i, d, h, st, st', hs, hl, hle => by
      obtain ⟨hss, hps, hst, hpt⟩ := hs
      obtain ⟨⟨h₁, ds⟩, st₁, hsl, hl⟩ := hl.bind_inv
      obtain ⟨⟨h₂, dp⟩, st₂, hpl, hl⟩ := hl.bind_inv
      obtain ⟨⟨h₃, ds'⟩, st₃, hspill, hl⟩ := hl.bind_inv
      obtain ⟨heq, rfl⟩ := hl.pure_inv
      cases heq
      have hle₂ := hspill.le_of_le (grows_spillBefore _ _) hle
      have hds := settled_expr hsigs hctx hss hsl (hpl.le_of_le (grows_expr p) hle₂)
      have hdp := settled_expr hsigs hctx hps hpl hle₂
      have hds' := settled_spillBefore hds.settled hspill hle
      exact ⟨(hds.hoisted.append hds'.hoisted).append hdp.hoisted,
        ⟨hds'.settled, hdp.settled, hds'.ty_eq.trans (hds.ty_eq.trans hst), hdp.ty_eq.trans hpt⟩, rfl⟩
  | .len e i, d, h, st, st', hs, hl, hle => by
      obtain ⟨he, ⟨t, ht⟩, hi⟩ := hs
      obtain ⟨⟨h₁, d₁⟩, st₁, h₁l, hl⟩ := hl.bind_inv
      obtain ⟨heq, rfl⟩ := hl.pure_inv
      cases heq
      have hd := settled_expr hsigs hctx he h₁l hle
      exact ⟨hd.hoisted, ⟨hd.settled, ⟨t, hd.ty_eq.trans ht⟩, hi⟩, rfl⟩
  | .alloc t e s i, d, h, st, st', hs, hl, hle => by
      obtain ⟨he, het, hi⟩ := hs
      obtain ⟨⟨h₁, d₁⟩, st₁, h₁l, hl⟩ := hl.bind_inv
      obtain ⟨heq, rfl⟩ := hl.pure_inv
      cases heq
      have hd := settled_expr hsigs hctx he h₁l hle
      exact ⟨hd.hoisted, ⟨hd.settled, hd.ty_eq.trans het, hi⟩, rfl⟩
  | .slice es s i, d, h, st, st', hs, hl, hle => by
      obtain ⟨hes, hvalid, t, hi, ht⟩ := hs
      obtain ⟨⟨h₁, ds⟩, st₁, h₁l, hl⟩ := hl.bind_inv
      obtain ⟨heq, rfl⟩ := hl.pure_inv
      cases heq
      obtain ⟨hh, hds⟩ := standsFor_exprs hsigs hctx .nil hes h₁l hle
      obtain ⟨hset, htypes⟩ := settledList_of_standsFor hds hes
      exact ⟨hh, ⟨hset, hvalid, t, hi, Expr.forall_ty_congr htypes ht⟩, rfl⟩
  | .closure ps rs cs b i, d, h, st, st', hs, hl, hle => by
      obtain ⟨hps, hcs, hb, hi, hvalid⟩ := hs
      obtain ⟨b', st₁, hbl, hl⟩ := hl.bind_inv
      obtain ⟨heq, rfl⟩ := hl.pure_inv
      cases heq
      have htypes : ps.map fin.ctx.typeOf = ps.map sc.ctx.typeOf :=
        List.map_congr_left fun x hx => hctx.typeOf (hps x hx)
      exact ⟨.nil, ⟨fun x hx => hctx.knows (hps x hx), fun x hx => hctx.knows (hcs x hx),
        settled_block hsigs hctx hb hbl hle, htypes ▸ hi, hvalid⟩, rfl⟩
termination_by structural e => e

theorem standsFor_exprs (hsigs : fin.signatures = sc.signatures) (hctx : sc.ctx.Le fin.ctx) :
    ∀ {es pre done all : List Expr} {h : List Stmt} {st st' : State},
    List.Forall₂ (StandsFor fin) pre done → Expr.SettledList sc es →
    Lowers (exprs done es) st (h, all) st' → st'.ctx.Le fin.ctx →
    SettledHoist fin h ∧ List.Forall₂ (StandsFor fin) (pre ++ es) all
  | [], pre, done, all, h, st, st', hdone, _, hl, _ => by
      obtain ⟨heq, -⟩ := hl.pure_inv
      cases heq
      rw [List.append_nil]
      exact ⟨.nil, hdone⟩
  | e :: es, pre, done, all, h, st, st', hdone, hes, hl, hle => by
      obtain ⟨⟨h₁, d⟩, st₁, hel, hl⟩ := hl.bind_inv
      obtain ⟨⟨s, done'⟩, st₂, hspill, hl⟩ := hl.bind_inv
      obtain ⟨⟨h₂, all'⟩, st₃, hrest, hl⟩ := hl.bind_inv
      obtain ⟨heq, rfl⟩ := hl.pure_inv
      cases heq
      have hle₂ := hrest.le_of_le (grows_exprs _ es) hle
      have hd := settled_expr hsigs hctx hes.1 hel (hspill.le_of_le (grows_spillAllBefore _ _) hle₂)
      obtain ⟨hs, hdone'⟩ := standsFor_spillAllBefore hdone hspill hle₂
      have hnext : List.Forall₂ (StandsFor fin) (pre ++ [e]) (done' ++ [d]) :=
        List.rel_append hdone' (.cons (.settled (ne_println_of_settled hes.1) hd.settled hd.ty_eq) .nil)
      obtain ⟨hh₂, hall⟩ := standsFor_exprs hsigs hctx hnext hes.2 hrest hle
      rw [List.append_assoc, List.singleton_append] at hall
      exact ⟨(hs.append hd.hoisted).append hh₂, hall⟩
termination_by structural es => es

theorem settled_stmt (hsigs : fin.signatures = sc.signatures) (hctx : sc.ctx.Le fin.ctx)
    {rs : List Ty} : ∀ {s : Stmt} {ss : List Stmt} {st st' : State},
    s.Settled sc rs → Lowers (stmt s) st ss st' → st'.ctx.Le fin.ctx → Stmt.SettledBlock fin rs ss
  | .bind x e, ss, st, st', hs, hl, hle => by
      obtain ⟨he, hx, hty⟩ := hs
      obtain ⟨⟨h, d⟩, st₁, hel, hl⟩ := hl.bind_inv
      obtain ⟨rfl, rfl⟩ := hl.pure_inv
      have hd := settled_expr hsigs hctx he hel hle
      have hlast : (Stmt.bind x d).Settled fin rs :=
        ⟨hd.settled, hctx.knows hx, (hd.ty_eq.trans hty).trans (hctx.typeOf hx).symm⟩
      exact (Stmt.settledBlock_append _ _).2 ⟨hd.hoisted rs, hlast, trivial⟩
  | .assign x e, ss, st, st', hs, hl, hle => by
      obtain ⟨he, hx, hty⟩ := hs
      obtain ⟨⟨h, d⟩, st₁, hel, hl⟩ := hl.bind_inv
      obtain ⟨rfl, rfl⟩ := hl.pure_inv
      have hd := settled_expr hsigs hctx he hel hle
      have hlast : (Stmt.assign x d).Settled fin rs :=
        ⟨hd.settled, hctx.knows hx, (hd.ty_eq.trans hty).trans (hctx.typeOf hx).symm⟩
      exact (Stmt.settledBlock_append _ _).2 ⟨hd.hoisted rs, hlast, trivial⟩
  | .store s p v b, ss, st, st', hs, hl, hle => by
      obtain ⟨hss, hps, hvs, hst, hpt⟩ := hs
      obtain ⟨⟨h₁, ds⟩, st₁, hsl, hl⟩ := hl.bind_inv
      obtain ⟨⟨h₂, dp⟩, st₂, hpl, hl⟩ := hl.bind_inv
      obtain ⟨⟨s₁, ds₁⟩, st₃, hspill₁, hl⟩ := hl.bind_inv
      obtain ⟨⟨h₃, dv⟩, st₄, hvl, hl⟩ := hl.bind_inv
      obtain ⟨⟨s₂, ds₂⟩, st₅, hspill₂, hl⟩ := hl.bind_inv
      obtain ⟨⟨s₃, dp₁⟩, st₆, hspill₃, hl⟩ := hl.bind_inv
      obtain ⟨rfl, rfl⟩ := hl.pure_inv
      -- the table only grows from step to step, so each one is in the final table
      have hle₅ := hspill₃.le_of_le (grows_spillBefore _ _) hle
      have hle₄ := hspill₂.le_of_le (grows_spillBefore _ _) hle₅
      have hle₃ := hvl.le_of_le (grows_expr v) hle₄
      have hle₂ := hspill₁.le_of_le (grows_spillBefore _ _) hle₃
      have hds := settled_expr hsigs hctx hss hsl (hpl.le_of_le (grows_expr p) hle₂)
      have hdp := settled_expr hsigs hctx hps hpl hle₂
      have hdv := settled_expr hsigs hctx hvs hvl hle₄
      have hds₁ := settled_spillBefore hds.settled hspill₁ hle₃
      have hds₂ := settled_spillBefore hds₁.settled hspill₂ hle₅
      have hdp₁ := settled_spillBefore hdp.settled hspill₃ hle
      have hlast : (Stmt.store ds₂ dp₁ dv b).Settled fin rs := by
        refine ⟨hds₂.settled, hdp₁.settled, hdv.settled, ?_, hdp₁.ty_eq.trans (hdp.ty_eq.trans hpt)⟩
        rw [hds₂.ty_eq, hds₁.ty_eq, hds.ty_eq, hst, hdv.ty_eq]
      have hhoisted := ((((hds.hoisted.append hds₁.hoisted).append hdp.hoisted).append
        hds₂.hoisted).append hdp₁.hoisted).append hdv.hoisted
      exact (Stmt.settledBlock_append _ _).2 ⟨hhoisted rs, hlast, trivial⟩
  | .expr e, ss, st, st', hs, hl, hle => by
      obtain ⟨⟨h, d⟩, st₁, hel, hl⟩ := hl.bind_inv
      obtain ⟨rfl, rfl⟩ := hl.pure_inv
      have hd := settled_expr hsigs hctx hs hel hle
      exact (Stmt.settledBlock_append _ _).2 ⟨hd.hoisted rs, hd.settled, trivial⟩
  | .return es, ss, st, st', hs, hl, hle => by
      obtain ⟨hes, hret⟩ := hs
      obtain ⟨⟨h, ds⟩, st₁, hel, hl⟩ := hl.bind_inv
      obtain ⟨rfl, rfl⟩ := hl.pure_inv
      obtain ⟨hh, hds⟩ := standsFor_exprs hsigs hctx .nil hes hel hle
      obtain ⟨hset, htypes⟩ := settledList_of_standsFor hds hes
      have hlast : (Stmt.return ds).Settled fin rs :=
        ⟨hset, (Validate.returned_congr htypes).trans hret⟩
      exact (Stmt.settledBlock_append _ _).2 ⟨hh rs, hlast, trivial⟩
  | .if c t e, ss, st, st', hs, hl, hle => by
      obtain ⟨hc, hct, ht, he⟩ := hs
      obtain ⟨⟨h, dc⟩, st₁, hcl, hl⟩ := hl.bind_inv
      obtain ⟨t', st₂, htl, hl⟩ := hl.bind_inv
      obtain ⟨e', st₃, hel, hl⟩ := hl.bind_inv
      obtain ⟨rfl, rfl⟩ := hl.pure_inv
      have hle₂ := hel.le_of_le (grows_block e) hle
      have hdc := settled_expr hsigs hctx hc hcl (htl.le_of_le (grows_block t) hle₂)
      have hlast : (Stmt.if dc t' e').Settled fin rs :=
        ⟨hdc.settled, hdc.ty_eq.trans hct, settled_block hsigs hctx ht htl hle₂,
          settled_block hsigs hctx he hel hle⟩
      exact (Stmt.settledBlock_append _ _).2 ⟨hdc.hoisted rs, hlast, trivial⟩
  | .while c b, ss, st, st', hs, hl, hle => by
      obtain ⟨hc, hct, hb⟩ := hs
      obtain ⟨⟨h, dc⟩, st₁, hcl, hl⟩ := hl.bind_inv
      obtain ⟨b', st₂, hbl, hl⟩ := hl.bind_inv
      obtain ⟨rfl, rfl⟩ := hl.pure_inv
      have hdc := settled_expr hsigs hctx hc hcl (hbl.le_of_le (grows_block b) hle)
      exact ⟨settled_loop (hct ▸ hdc) (settled_block hsigs hctx hb hbl hle), trivial⟩
  | .break, ss, st, st', _, hl, _ => by
      obtain ⟨rfl, -⟩ := hl.pure_inv
      exact ⟨trivial, trivial⟩
  | .for x a z b, ss, st, st', hs, hl, hle => by
      obtain ⟨ha, hz, hat, hzt, hx, hxt, hb⟩ := hs
      obtain ⟨⟨h₁, da⟩, st₁, hal, hl⟩ := hl.bind_inv
      obtain ⟨⟨h₂, dz⟩, st₂, hzl, hl⟩ := hl.bind_inv
      obtain ⟨⟨s, da'⟩, st₃, hspill, hl⟩ := hl.bind_inv
      obtain ⟨b', st₄, hbl, hl⟩ := hl.bind_inv
      obtain ⟨rfl, rfl⟩ := hl.pure_inv
      have hle₃ := hbl.le_of_le (grows_block b) hle
      have hle₂ := hspill.le_of_le (grows_spillBefore _ _) hle₃
      have hda := settled_expr hsigs hctx ha hal (hzl.le_of_le (grows_expr z) hle₂)
      have hdz := settled_expr hsigs hctx hz hzl hle₂
      have hda' := settled_spillBefore hda.settled hspill hle₃
      have hlast : (Stmt.for x da' dz b').Settled fin rs :=
        ⟨hda'.settled, hdz.settled, hda'.ty_eq.trans (hda.ty_eq.trans hat), hdz.ty_eq.trans hzt,
          hctx.knows hx, (hctx.typeOf hx).trans hxt, settled_block hsigs hctx hb hbl hle⟩
      have hhoisted := (hda.hoisted.append hda'.hoisted).append hdz.hoisted
      exact (Stmt.settledBlock_append _ _).2 ⟨hhoisted rs, hlast, trivial⟩
termination_by structural s => s

theorem settled_block (hsigs : fin.signatures = sc.signatures) (hctx : sc.ctx.Le fin.ctx)
    {rs : List Ty} : ∀ {ss ss' : List Stmt} {st st' : State},
    Stmt.SettledBlock sc rs ss → Lowers (block ss) st ss' st' → st'.ctx.Le fin.ctx →
    Stmt.SettledBlock fin rs ss'
  | [], ss', st, st', _, hl, _ => by
      obtain ⟨rfl, -⟩ := hl.pure_inv
      trivial
  | s :: ss, ss', st, st', hs, hl, hle => by
      obtain ⟨s', st₁, hsl, hl⟩ := hl.bind_inv
      obtain ⟨ss₁, st₂, hssl, hl⟩ := hl.bind_inv
      obtain ⟨rfl, rfl⟩ := hl.pure_inv
      exact (Stmt.settledBlock_append _ _).2
        ⟨settled_stmt hsigs hctx hs.1 hsl (hssl.le_of_le (grows_block ss) hle),
          settled_block hsigs hctx hs.2 hssl hle⟩
termination_by structural ss => ss

end

end Walk

end Lowering

/-! ## Modules -/

/-- The lowering of a function with settled code. -/
theorem Function.settled_lower {sigs : Validate.Signatures} {f f' : Function} {n : Nat}
    (hparams : ∀ x ∈ f.params, f.ctx.Knows x)
    (hbody : Stmt.SettledBlock ⟨f.ctx, sigs⟩ f.results f.body) (h : f.lower = (.ok n, f')) :
    (∀ x ∈ f'.params, f'.ctx.Knows x) ∧ Stmt.SettledBlock ⟨f'.ctx, sigs⟩ f'.results f'.body := by
  unfold Function.lower at h
  split at h
  · rename_i b st hb
    simp only [Prod.mk.injEq, Except.ok.injEq] at h
    obtain ⟨-, rfl⟩ := h
    have hle : f.ctx.Le st.ctx := (Lowering.Lowers.addsTemps hb (Lowering.grows_block f.body)).le
    have hsigs : (Scene.mk st.ctx sigs).signatures = (Scene.mk f.ctx sigs).signatures := rfl
    exact ⟨fun x hx => hle.knows (hparams x hx),
      Lowering.settled_block hsigs hle hbody hb (.refl st.ctx)⟩
  · simp at h

/-- **Lowering keeps a module settled.** -/
theorem Module.Settled.lower {m m' : Module} {n : Nat} (hm : m.Settled)
    (h : m.lower = (.ok n, m')) : m'.Settled := by
  have hto : m.LowersTo m' :=
    Module.forall₂_of_lower (fun f hf _ _ => Function.lowersTo_of_lower (hm f hf).1) h
  have hall := Module.forall₂_of_lower
    (R := fun _ f' => (∀ x ∈ f'.params, f'.ctx.Knows x) ∧
      Stmt.SettledBlock ⟨f'.ctx, Validate.signatures m⟩ f'.results f'.body)
    (fun f hf _ _ hf' => Function.settled_lower (hm f hf).1 (hm f hf).2 hf') h
  intro f' hf'
  obtain ⟨f, -, hff'⟩ := mem_of_forall₂_right hall hf'
  rw [hto.signatures_eq]
  exact hff'

/-- **Lowering preserves typing.** Take a module whose locals are all in the tables of their
functions. If validating it finds nothing and leaves no invalid type, then giving facts to its maps
and lowering it succeeds, and validating the lowered module finds nothing and changes nothing. -/
theorem Module.validate_lower_of_silent {m : Module} (hknown : ∀ f ∈ m.functions, f.LocalsKnown)
    (hsilent : m.validate.findings = [])
    (hvalid : ∀ f ∈ m.validate.value.functions, f.TypesValid) :
    ∃ n m', m.validate.value.withMapFacts.lower = (.ok n, m') ∧ m'.validate = pure m' := by
  have hsettled : m.validate.value.Settled := Module.settled_validate hknown hsilent hvalid
  obtain ⟨hfacts, hready⟩ := hsettled.withMapFacts
  obtain ⟨n, m', hlower⟩ := Module.lower_of_mapsReady hready
  exact ⟨n, m', hlower, Module.validate_of_settled (hfacts.lower hlower)⟩

/-- A module as it may be built by hand, with wrong types written on its expressions. The condition of
a loop maps a closure over a sequence behind a conjunction, and the loop prints what it finds. -/
theorem Module.validate_lower_of_silent_map :
    let i : Info := ⟨.unit, ⟨0, 0⟩⟩
    let seq : LocalId := ⟨0⟩
    let x : LocalId := ⟨1⟩
    let mapped : Expr := .binary .map (.local seq i)
      (.closure [x] [.i64] [] [.return [.binary .add (.local x i) (.local x i) none none i]] i) none none i
    let first : Expr := .index mapped (.const (.int 0) i) .checked i
    let m : Module := ⟨[{
      name := "main"
      params := []
      results := []
      body := [
        .bind seq (.slice [.const (.int 1) i, .const (.int 2) i] ⟨0⟩ i),
        .while (.binary .and (.const (.bool true) i)
            (.binary .eq first (.const (.int 4) i) none none i) none none i)
          [.expr (.call (.builtin .println i) [first] i)]]
      ctx := { locals := #[⟨"seq", .slice .i64, false⟩, ⟨"x", .i64, false⟩], nextSite := 1 }
      span := ⟨0, 0⟩ }]⟩
    m.validate.findings = [] ∧
      ∃ n m', m.validate.value.withMapFacts.lower = (.ok n, m') ∧ m'.validate = pure m' := by
  intro i seq x mapped first m
  have hsilent : m.validate.findings = [] := by decide +kernel
  have hexprs : (m.validate.value.functions.all fun f =>
      f.parts.all fun e => !e.ty.hasInvalid) = true := by decide +kernel
  refine ⟨hsilent, Module.validate_lower_of_silent ?_ hsilent ?_⟩
  · simp [m, Function.LocalsKnown, Stmt.idsList, Stmt.ids, Expr.ids, Expr.idsList, Context.Knows,
      first, mapped, seq, x]
  · intro f hf
    have hparts : ∀ e ∈ f.parts, e.ty.hasInvalid = false := by
      simpa using List.all_eq_true.1 (List.all_eq_true.1 hexprs f hf)
    rw [Module.functions_validate] at hf
    obtain rfl := List.mem_singleton.1 hf
    refine ⟨?_, rfl, rfl, hparts⟩
    rintro ⟨k⟩ hk
    have hlt : k < 2 := hk
    interval_cases k <;> rfl
end Rivulet.Ir
