import Rivulet.Ir.Lowering

set_option autoImplicit false

/-! # How lowering ends

What can be said of every step of lowering at once, whatever state it starts from (`Lowering.Ends`):

* it fails if there is a malformed map in its code, with the breach of the first one, and it succeeds
  otherwise;
* it changes the context only by asking for temporaries, and it does so whether it fails or not.

The second part is stated for any relation between contexts that holds of a context and the one with
one more temporary (`Lowering.Respected`), so that one walk over the code serves for all of them. The
order in which the walk meets the maps is that of `Expr.parts`: a map is looked at before its
operands, and operands and statements are taken from left to right. -/

namespace Rivulet.Ir

namespace Lowering

/-- The breach with which a step ended. -/
def breachOf {α : Type} : Except Breach α → Option Breach
  | .error b => some b
  | .ok _ => none

/-- What lowering reads off a map. -/
theorem mapParts_ok_iff {s : Expr} {facts : Option MapFacts} {i : Info} {found : MapFacts}
    {result element : Ty} :
    mapParts s facts i = .ok (found, result, element) ↔
      facts = some found ∧ i.ty = .slice result ∧ s.ty = .slice element := by
  unfold mapParts
  cases facts with
  | none => simp
  | some facts => cases i.ty <;> cases s.ty <;> simp [Ty.element?]

end Lowering

open Lowering

/-- What lowering finds wrong with an expression apart from its parts. Only a map can be malformed. -/
def Expr.breach? : Expr → Option Breach
  | .binary op l _ _ facts i => if op = .map then breachOf (mapParts l facts i) else none
  | _ => none

/-- The first breach among some expressions. -/
def firstBreach (ps : List Expr) : Option Breach := ps.findSome? Expr.breach?

@[simp] theorem firstBreach_append (ps qs : List Expr) :
    firstBreach (ps ++ qs) = (firstBreach ps).or (firstBreach qs) := List.findSome?_append

@[simp] theorem firstBreach_cons (e : Expr) (ps : List Expr) :
    firstBreach (e :: ps) = e.breach?.or (firstBreach ps) := by
  rw [firstBreach, List.findSome?_cons]
  cases e.breach? <;> rfl

namespace Lowering

/-- The words from which the names of temporaries are made. -/
def hints : List String := ["spill", "cond", "seq", "fn", "len", "out", "i"]

/-- A relation between contexts that is respected by whatever only asks for temporaries. -/
structure Respected (R : Context → Context → Prop) : Prop where
  refl : ∀ ctx, R ctx ctx
  trans : ∀ {ctx ctx' ctx''}, R ctx ctx' → R ctx' ctx'' → R ctx ctx''
  freshTemp : ∀ (ctx : Context) (hint : String) (t : Ty), hint ∈ hints →
    R ctx (ctx.freshTemp hint t).2

variable {R : Context → Context → Prop}

/-- How a step ends from every state: with a breach, if there is one, and in a context that is related
to the one before. -/
def Ends {α : Type} (R : Context → Context → Prop) (x : Lower α) (b : Option Breach) : Prop :=
  ∀ st : State, R st.ctx (x.run.run st).2.ctx ∧ breachOf (x.run.run st).1 = b

namespace Ends

variable {α β : Type} {x : Lower α} {f : α → Lower β} {b c : Option Breach}

theorem pure (hR : Respected R) (a : α) : Ends R (pure a) none := fun st => ⟨hR.refl st.ctx, rfl⟩

theorem lift (hR : Respected R) (r : Except Breach α) : Ends R (liftM r) (breachOf r) := fun st => by
  cases r <;> exact ⟨hR.refl st.ctx, rfl⟩

theorem bind (hR : Respected R) (hx : Ends R x b) (hf : ∀ a, Ends R (f a) c) :
    Ends R (x >>= f) (b.or c) := by
  intro st
  obtain ⟨hctx, hb⟩ := hx st
  rw [ExceptT.run_bind, StateT.run_bind]
  cases hr : x.run.run st with
  | mk r st' =>
      rw [hr] at hctx hb
      cases r with
      | error e =>
          -- the second step is not taken, and the context stays as the first has left it
          subst hb
          exact ⟨hctx, rfl⟩
      | ok a =>
          subst hb
          obtain ⟨hctx', hc⟩ := hf a st'
          exact ⟨hR.trans hctx hctx', hc⟩

theorem congr (h : Ends R x b) (hb : b = c) : Ends R x c := hb ▸ h

/-- A step without a breach of its own in front of another. -/
theorem after (hR : Respected R) (hx : Ends R x none) (hf : ∀ a, Ends R (f a) c) :
    Ends R (x >>= f) c := hx.bind hR hf

/-- A step without a breach of its own behind another. -/
theorem before (hR : Respected R) (hx : Ends R x b) (hf : ∀ a, Ends R (f a) none) :
    Ends R (x >>= f) b := (hx.bind hR hf).congr Option.or_none

end Ends

/-! ## Small pieces of code -/

section Walk

variable (hR : Respected R)

include hR

theorem ends_freshTemp {hint : String} (hhint : hint ∈ hints) (t : Ty) :
    Ends R (freshTemp hint t) none := fun st => ⟨hR.freshTemp st.ctx hint t hhint, rfl⟩

theorem ends_bindTemp {hint : String} (hhint : hint ∈ hints) (e : Expr) :
    Ends R (bindTemp hint e) none :=
  .after hR (ends_freshTemp hR hhint e.ty) fun _ => .pure hR _

theorem ends_spillBefore (later : List Stmt) (e : Expr) : Ends R (spillBefore later e) none := by
  unfold spillBefore spill
  split
  · exact .pure hR _
  · refine .after hR (fun st => ⟨hR.refl st.ctx, rfl⟩) fun st => ?_
    split
    · exact .pure hR _
    · exact .after hR (ends_bindTemp hR (by decide) e) fun _ => .pure hR _

theorem ends_spillAllBefore (later : List Stmt) :
    ∀ es : List Expr, Ends R (spillAllBefore later es) none
  | [] => .pure hR _
  | e :: es =>
      .after hR (ends_spillBefore hR later e) fun _ =>
        .after hR (ends_spillAllBefore later es) fun _ => .pure hR _

theorem ends_shortCircuit (op : BinaryOp) (l : Expr) (h : List Stmt) (r : Expr) :
    Ends R (shortCircuit op l h r) none :=
  .after hR (ends_freshTemp hR (by decide) _) fun _ => .pure hR _

theorem ends_mapLoop (site : Site) (t u : Ty) (i : Info) (seq fn : Expr) :
    Ends R (mapLoop site t u i seq fn) none :=
  .after hR (ends_bindTemp hR (by decide) _) fun _ =>
    .after hR (ends_bindTemp hR (by decide) _) fun _ =>
      .after hR (ends_freshTemp hR (by decide) _) fun _ =>
        .after hR (fun st => ⟨hR.refl st.ctx, rfl⟩) fun _ => .pure hR _

/-! ## The walk -/

mutual

theorem ends_expr : ∀ e : Expr, Ends R (expr e) (firstBreach e.parts)
  | .const _ _ | .local _ _ | .function _ _ | .builtin _ _ => .pure hR _
  | .unary _ e _ | .len e _ | .alloc _ e _ _ => .before hR (ends_expr e) fun _ => .pure hR _
  | .binary op l r t facts i => by
      simp only [Expr.parts, firstBreach_cons, firstBreach_append, Expr.breach?]
      unfold expr
      split
      · -- the map itself comes before its operands
        refine .bind hR (.lift hR _) fun _ => .bind hR (ends_expr l) fun _ =>
          .after hR (ends_bindTemp hR (by decide) _) fun _ => .before hR (ends_expr r) fun _ =>
            .after hR (ends_bindTemp hR (by decide) _) fun _ =>
              .after hR (ends_mapLoop hR _ _ _ _ _ _) fun _ => .pure hR _
      · rw [Option.none_or]
        refine .bind hR (ends_expr l) fun p => .before hR (ends_expr r) fun q => ?_
        dsimp only
        split
        · split
          · exact .pure hR _
          · exact .after hR (ends_shortCircuit hR _ _ _ _) fun _ => .pure hR _
        · exact .after hR (ends_spillBefore hR _ _) fun _ => .pure hR _
  | .call f as i => by
      simp only [Expr.parts, firstBreach_cons, firstBreach_append, Expr.breach?, Option.none_or]
      unfold expr
      refine .bind hR (ends_expr f) fun p => .before hR (ends_exprs _ as) fun q => ?_
      dsimp only
      split <;> exact .pure hR _
  | .index s p _ _ => by
      simp only [Expr.parts, firstBreach_cons, firstBreach_append, Expr.breach?, Option.none_or]
      exact .bind hR (ends_expr s) fun _ => .before hR (ends_expr p) fun _ =>
        .after hR (ends_spillBefore hR _ _) fun _ => .pure hR _
  | .slice es _ _ => .before hR (ends_exprs _ es) fun _ => .pure hR _
  | .closure _ _ _ b _ => .before hR (ends_block b) fun _ => .pure hR _

theorem ends_exprs : ∀ done es : List Expr, Ends R (exprs done es) (firstBreach (Expr.partsList es))
  | _, [] => .pure hR _
  | _, e :: es => by
      simp only [Expr.partsList, firstBreach_append]
      exact .bind hR (ends_expr e) fun _ => .after hR (ends_spillAllBefore hR _ _) fun _ =>
        .before hR (ends_exprs _ es) fun _ => .pure hR _

theorem ends_stmt : ∀ s : Stmt, Ends R (stmt s) (firstBreach s.parts)
  | .bind _ e | .assign _ e | .expr e => .before hR (ends_expr e) fun _ => .pure hR _
  | .store s p v _ => by
      simp only [Stmt.parts, firstBreach_append, Option.or_assoc]
      exact .bind hR (ends_expr s) fun _ => .bind hR (ends_expr p) fun _ =>
        .after hR (ends_spillBefore hR _ _) fun _ => .before hR (ends_expr v) fun _ =>
          .after hR (ends_spillBefore hR _ _) fun _ =>
            .after hR (ends_spillBefore hR _ _) fun _ => .pure hR _
  | .return es => .before hR (ends_exprs _ es) fun _ => .pure hR _
  | .if c t e => by
      simp only [Stmt.parts, firstBreach_append, Option.or_assoc]
      exact .bind hR (ends_expr c) fun _ => .bind hR (ends_block t) fun _ =>
        .before hR (ends_block e) fun _ => .pure hR _
  | .while c b => by
      simp only [Stmt.parts, firstBreach_append]
      exact .bind hR (ends_expr c) fun _ => .before hR (ends_block b) fun _ => .pure hR _
  | .break => .pure hR _
  | .for _ a z b => by
      simp only [Stmt.parts, firstBreach_append, Option.or_assoc]
      exact .bind hR (ends_expr a) fun _ => .bind hR (ends_expr z) fun _ =>
        .after hR (ends_spillBefore hR _ _) fun _ => .before hR (ends_block b) fun _ => .pure hR _

theorem ends_block : ∀ ss : List Stmt, Ends R (block ss) (firstBreach (Stmt.partsList ss))
  | [] => .pure hR _
  | s :: ss => by
      simp only [Stmt.partsList, firstBreach_append]
      exact .bind hR (ends_stmt s) fun _ => .before hR (ends_block ss) fun _ => .pure hR _

end

end Walk

end Lowering

end Rivulet.Ir
