import Rivulet.Proofs.Lowering.Failure
import Mathlib.Algebra.Order.Group.Multiset
import Mathlib.Tactic.Abel

set_option autoImplicit false

/-! # Lowering loses nothing and doubles nothing

While code is lowered, expressions are moved into temporaries, hoisted statements and new blocks. What
counts is the *load* of a piece of code, which is the number of its maps and the multiset of its
allocation sites. The load of lowered code is *due*: no maps, and to the old sites one more for each
former map. This is shown step by step (`Accounts`) and adds up over the code.

Code without maps is left alone by lowering, down to the table of locals (`idle_block`). Hence lowering
a second time changes nothing. The main statement is `Module.lower_accounts`. -/

namespace Rivulet.Ir

open Lowering

/-! ## Loads -/

/-- The allocation site for the result of a map. -/
def Expr.resultSite? : Expr → Option Site
  | .binary op _ _ _ facts _ => if op = .map then facts.map MapFacts.result else none
  | _ => none

/-- The allocation sites for the results of the maps in a function, in the order of the code. -/
def Function.resultSites (f : Function) : List Site := f.parts.filterMap Expr.resultSite?

/-- What an expression apart from its parts adds to the number of maps and to the allocation sites. -/
def Expr.load : Expr → ℕ × Multiset Site
  | .const _ _ | .local _ _ | .function _ _ | .builtin _ _ | .unary _ _ _ | .call _ _ _
  | .index _ _ _ _ | .len _ _ | .closure _ _ _ _ _ => 0
  | .binary op _ _ _ _ _ => if op = .map then (1, 0) else 0
  | .alloc _ _ s _ | .slice _ s _ => (0, {s})

/-- What an expression apart from its parts should add when it is lowered. -/
def Expr.due : Expr → ℕ × Multiset Site
  | .const _ _ | .local _ _ | .function _ _ | .builtin _ _ | .unary _ _ _ | .call _ _ _
  | .index _ _ _ _ | .len _ _ | .closure _ _ _ _ _ => 0
  | .binary op _ _ _ facts _ => if op = .map then (0, ↑(facts.map MapFacts.result).toList) else 0
  | .alloc _ _ s _ | .slice _ s _ => (0, {s})

/-- The number of maps and the allocation sites among some expressions. -/
def load (ps : List Expr) : ℕ × Multiset Site := (ps.map Expr.load).sum

/-- The load that some expressions should have when they are lowered. -/
def due (ps : List Expr) : ℕ × Multiset Site := (ps.map Expr.due).sum

section Loads

variable (e : Expr) (ps qs : List Expr)

theorem load_nil : load [] = 0 := rfl

theorem load_cons : load (e :: ps) = e.load + load ps := by
  rw [load, List.map_cons, List.sum_cons, load]

theorem due_cons : due (e :: ps) = e.due + due ps := by
  rw [due, List.map_cons, List.sum_cons, due]

theorem load_append : load (ps ++ qs) = load ps + load qs := by
  rw [load, List.map_append, List.sum_append, load, load]

theorem due_append : due (ps ++ qs) = due ps + due qs := by
  rw [due, List.map_append, List.sum_append, due, due]

theorem load_eq : load ps = (ps.countP Expr.isMap, ↑(ps.filterMap Expr.site?)) := by
  induction ps with
  | nil => rfl
  | cons e ps ih =>
      rw [load_cons, ih]
      cases e with
      | binary op l r t facts i =>
          by_cases hop : op = .map <;>
            simp [Expr.load, hop, Expr.isMap, List.filterMap_cons, Expr.site?, add_comm]
      | _ => simp [Expr.load, Expr.isMap, List.filterMap_cons, Expr.site?]

theorem due_eq : due ps =
    (0, (↑(ps.filterMap Expr.site?) : Multiset Site) + ↑(ps.filterMap Expr.resultSite?)) := by
  induction ps with
  | nil => rfl
  | cons e ps ih =>
      rw [due_cons, ih]
      cases e with
      | binary op l r t facts i =>
          by_cases hop : op = .map <;> cases facts <;>
            simp [Expr.due, hop, List.filterMap_cons, Expr.site?, Expr.resultSite?,
              List.perm_middle.symm]
      | _ => simp [Expr.due, List.filterMap_cons, Expr.site?, Expr.resultSite?]

end Loads

theorem Stmt.partsList_append : ∀ ss ts : List Stmt,
    Stmt.partsList (ss ++ ts) = Stmt.partsList ss ++ Stmt.partsList ts
  | [], _ => rfl
  | s :: ss, ts => by
      rw [List.cons_append, Stmt.partsList, Stmt.partsList_append ss ts, Stmt.partsList,
        List.append_assoc]

theorem Expr.partsList_append : ∀ es ds : List Expr,
    Expr.partsList (es ++ ds) = Expr.partsList es ++ Expr.partsList ds
  | [], _ => rfl
  | e :: es, ds => by
      rw [List.cons_append, Expr.partsList, Expr.partsList_append es ds, Expr.partsList,
        List.append_assoc]

theorem Stmt.partsList_singleton (s : Stmt) : Stmt.partsList [s] = s.parts := by
  rw [Stmt.partsList, Stmt.partsList, List.append_nil]

theorem load_snoc (ss : List Stmt) (s : Stmt) :
    load (Stmt.partsList (ss ++ [s])) = load (Stmt.partsList ss) + load s.parts := by
  rw [Stmt.partsList_append, load_append, Stmt.partsList_singleton]

namespace Lowering

/-- What a step does if it succeeds: it counts `n` maps, and its value is as described. -/
def Accounts {α : Type} (x : Lower α) (n : ℕ) (Q : α → Prop) : Prop :=
  ∀ st a st', Lowers x st a st' → st'.lowered = st.lowered + n ∧ Q a

namespace Accounts

variable {α β : Type} {x : Lower α} {f : α → Lower β} {n k : ℕ} {Q : α → Prop} {P : β → Prop}

theorem pure {a : α} (ha : Q a) : Accounts (pure a) 0 Q := by
  intro st b st' h
  obtain ⟨rfl, rfl⟩ := h.pure_inv
  exact ⟨rfl, ha⟩

theorem bind (hx : Accounts x n Q) (hf : ∀ a, Q a → Accounts (f a) k P) :
    Accounts (x >>= f) (n + k) P := by
  intro st b st'' h
  obtain ⟨a, st', ha, hb⟩ := h.bind_inv
  obtain ⟨hn, hQ⟩ := hx st a st' ha
  obtain ⟨hk, hP⟩ := hf a hQ st' b st'' hb
  exact ⟨by rw [hk, hn, Nat.add_assoc], hP⟩

theorem lift (r : Except Breach α) : Accounts (liftM r) 0 fun a => r = .ok a := by
  intro st a st' h
  obtain ⟨hr, rfl⟩ := h.lift_inv
  exact ⟨rfl, hr⟩

/-- The value of a step comes from a step that succeeds. -/
theorem reached (h : Accounts x n Q) :
    Accounts x n fun a => Q a ∧ ∃ st st', Lowers x st a st' := fun st a st' ha =>
  ⟨(h st a st' ha).1, (h st a st' ha).2, st, st', ha⟩

theorem congr (h : Accounts x n Q) (hn : n = k) : Accounts x k Q := hn ▸ h

/-- A step that counts nothing in front of another. -/
theorem after (hx : Accounts x 0 Q) (hf : ∀ a, Q a → Accounts (f a) k P) :
    Accounts (x >>= f) k P := (hx.bind hf).congr (Nat.zero_add k)

/-- A step that counts nothing behind another. -/
theorem before (hx : Accounts x n Q) (hf : ∀ a, Q a → Accounts (f a) 0 P) :
    Accounts (x >>= f) n P := hx.bind hf

end Accounts

/-! ## Small pieces of code -/

theorem accounts_freshTemp (hint : String) (t : Ty) :
    Accounts (freshTemp hint t) 0 fun _ => True := by
  intro st x st' h
  have heq : ((Except.ok (st.ctx.freshTemp hint t).1, { st with ctx := (st.ctx.freshTemp hint t).2 })
      : Except Breach LocalId × State) = (.ok x, st') := h
  simp only [Prod.mk.injEq, Except.ok.injEq] at heq
  rw [← heq.2]
  exact ⟨rfl, trivial⟩

theorem accounts_bindTemp (hint : String) (e : Expr) :
    Accounts (bindTemp hint e) 0 fun p => load p.1.parts = load e.parts ∧ load p.2.parts = 0 :=
  .after (accounts_freshTemp hint e.ty) fun _ _ => .pure ⟨rfl, rfl⟩

theorem accounts_spillBefore (later : List Stmt) (e : Expr) :
    Accounts (spillBefore later e) 0 fun p =>
      load (Stmt.partsList p.1) + load p.2.parts = load e.parts := by
  rintro st ⟨s, d⟩ st' h
  -- an expression stays where it is or moves into a binding as a whole
  rcases spillBefore_steps h with ⟨rfl, rfl, rfl, -⟩ | ⟨b, rfl, hbind, -, -⟩
  · exact ⟨rfl, zero_add _⟩
  · obtain ⟨hcount, hb, hd⟩ := accounts_bindTemp _ _ _ _ _ hbind
    refine ⟨hcount, ?_⟩
    simp only [Stmt.partsList_singleton, hb, hd, add_zero]

theorem accounts_spillAllBefore (later : List Stmt) (es : List Expr) :
    Accounts (spillAllBefore later es) 0 fun p =>
      load (Stmt.partsList p.1) + load (Expr.partsList p.2) = load (Expr.partsList es) := by
  induction es with
  | nil => exact .pure rfl
  | cons e es ih =>
      refine .after (accounts_spillBefore later e) fun p hp => .after ih fun q hq => .pure ?_
      calc load (Stmt.partsList (p.1 ++ q.1)) + load (Expr.partsList (p.2 :: q.2))
          = (load (Stmt.partsList p.1) + load p.2.parts) +
              (load (Stmt.partsList q.1) + load (Expr.partsList q.2)) := by
            simp only [Stmt.partsList_append, Expr.partsList, load_append]
            abel
        _ = load (Expr.partsList (e :: es)) := by rw [hp, hq, Expr.partsList, load_append]

theorem accounts_shortCircuit (op : BinaryOp) (l : Expr) (h : List Stmt) (r : Expr) :
    Accounts (shortCircuit op l h r) 0 fun p =>
      load (Stmt.partsList p.1) + load p.2.parts =
        load l.parts + load (Stmt.partsList h) + load r.parts :=
  .after (accounts_freshTemp _ _) fun x _ => .pure <| by
    have htest : load (Expr.parts (if op = .and then .local x ⟨.bool, l.span⟩
        else negate (.local x ⟨.bool, l.span⟩))) = 0 := by split <;> rfl
    simp only [Stmt.partsList, Stmt.parts, Stmt.partsList_append, load_append, htest, List.append_nil,
      Expr.parts, load_nil, load_cons, Expr.load]
    abel

theorem accounts_mapLoop (site : Site) (result element : Ty) (i : Info) {seq fn : Expr}
    (hseq : load seq.parts = 0) (hfn : load fn.parts = 0) :
    Accounts (mapLoop site result element i seq fn) 1 fun p =>
      load (Stmt.partsList p.1) + load p.2.parts = (0, {site}) :=
  .after (accounts_bindTemp _ _) fun ⟨bindLen, len⟩ ⟨hbindLen, hlen⟩ =>
    .after (accounts_bindTemp _ _) fun ⟨bindOut, out⟩ ⟨hbindOut, hout⟩ =>
      .after (accounts_freshTemp _ _) fun x _ =>
        .before (Q := fun _ => True) (fun st u st' h => ⟨by cases h; rfl, trivial⟩) fun _ _ =>
          .pure <| by
            simp only [Stmt.partsList, Stmt.parts, Expr.parts, Expr.partsList, load_append, load_nil,
              List.append_nil, load_cons, Expr.load, hseq, hfn, hlen, hout, add_zero]
              at hbindLen hbindOut ⊢
            rw [hbindLen, hbindOut, zero_add]

theorem load_loop (h : List Stmt) (c : Expr) (b : List Stmt) :
    load (loop h c b).parts = load (Stmt.partsList h) + load c.parts + load (Stmt.partsList b) := by
  cases h with
  | nil =>
      simp only [loop, List.isEmpty_nil, if_true, Stmt.parts, Stmt.partsList, load_append, load_nil,
        zero_add]
  | cons s h =>
      simp only [loop, List.isEmpty_cons, Bool.false_eq_true, if_false, negate, Stmt.parts,
        Stmt.partsList_append, Stmt.partsList, Expr.parts, load_append, load_cons, Expr.load, load_nil,
        List.append_nil]
      abel

/-! ## Operators -/

section Operators

variable {l r : Expr} {t : Option Ty} {facts : Option MapFacts} {i : Info}
  (hl : Accounts (expr l) (load l.parts).1 fun p =>
    load (Stmt.partsList p.1) + load p.2.parts = due l.parts)
  (hr : Accounts (expr r) (load r.parts).1 fun p =>
    load (Stmt.partsList p.1) + load p.2.parts = due r.parts)

include hl hr

/-- The account of a map whose operands have theirs. -/
theorem accounts_map : Accounts (expr (.binary .map l r t facts i))
    (load (Expr.binary .map l r t facts i).parts).1 fun p =>
      load (Stmt.partsList p.1) + load p.2.parts = due (Expr.binary .map l r t facts i).parts := by
  simp only [Expr.parts, load_cons, Expr.load, load_append, due_cons, Expr.due, due_append, if_true]
  unfold expr
  rw [if_pos rfl]
  refine .congr (.after (.lift _) fun ⟨found, result, element⟩ hfound =>
    .bind hl fun ⟨h₁, l'⟩ hl' => .after (accounts_bindTemp _ _)
      fun ⟨bindSeq, seq⟩ ⟨hbindSeq, hseq⟩ => .bind hr fun ⟨h₂, r'⟩ hr' =>
        .after (accounts_bindTemp _ _) fun ⟨bindFn, fn⟩ ⟨hbindFn, hfn⟩ =>
          .before (accounts_mapLoop _ _ _ _ hseq hfn) fun ⟨h₃, out⟩ hout => .pure ?_) ?_
  · -- the operands are in the two bindings, and the loop allocates at the site of the result
    have hfacts : facts = some found := (mapParts_ok_iff.1 hfound).1
    calc load (Stmt.partsList (h₁ ++ [bindSeq] ++ h₂ ++ [bindFn] ++ h₃)) + load out.parts
        = (load (Stmt.partsList h₁) + load l'.parts) +
            (load (Stmt.partsList h₂) + load r'.parts) +
            (load (Stmt.partsList h₃) + load out.parts) := by
          simp only [Stmt.partsList_append, Stmt.partsList_singleton, load_append, hbindSeq,
            hbindFn]
          abel
      _ = due l.parts + due r.parts + (0, {found.result}) := by rw [hl', hr', hout]
      _ = (0, ↑(facts.map MapFacts.result).toList) + (due l.parts + due r.parts) := by
          rw [hfacts, Option.map_some, Option.toList_some, Multiset.coe_singleton, add_comm]
  · simp only [Prod.fst_add]
    omega

/-- The account of any other operator. -/
theorem accounts_operator {op : BinaryOp} (hop : op ≠ .map) :
    Accounts (expr (.binary op l r t facts i)) (load (Expr.binary op l r t facts i).parts).1
      fun p => load (Stmt.partsList p.1) + load p.2.parts =
        due (Expr.binary op l r t facts i).parts := by
  simp only [Expr.parts, load_cons, Expr.load, load_append, due_cons, Expr.due, due_append,
    if_neg hop, zero_add, Prod.fst_add]
  unfold expr
  rw [if_neg hop]
  refine .bind hl fun ⟨h₁, l'⟩ hl' => .before hr fun ⟨h₂, r'⟩ hr' => ?_
  dsimp only
  split
  · split
    · -- an operand that hoists nothing stays where it is
      rename_i hempty
      have hnil : load (Stmt.partsList h₂) = 0 := by rw [List.isEmpty_iff.1 hempty]; rfl
      refine .pure ?_
      calc load (Stmt.partsList h₁) + load (Expr.binary op l' r' t facts i).parts
          = (load (Stmt.partsList h₁) + load l'.parts) +
              (load (Stmt.partsList h₂) + load r'.parts) := by
            simp only [Expr.parts, load_cons, load_append, Expr.load, if_neg hop, hnil]
            abel
        _ = due l.parts + due r.parts := by rw [hl', hr']
    · -- what the right operand hoists goes into a branch, and is counted there
      refine .after (accounts_shortCircuit _ _ _ _) fun ⟨h₃, d⟩ hd => .pure ?_
      calc load (Stmt.partsList (h₁ ++ h₃)) + load d.parts
          = load (Stmt.partsList h₁) + (load (Stmt.partsList h₃) + load d.parts) := by
            rw [Stmt.partsList_append, load_append, add_assoc]
        _ = (load (Stmt.partsList h₁) + load l'.parts) +
              (load (Stmt.partsList h₂) + load r'.parts) := by
            rw [hd, add_assoc, add_assoc]
        _ = due l.parts + due r.parts := by rw [hl', hr']
  · refine .after (accounts_spillBefore _ _) fun ⟨s, d⟩ hd => .pure ?_
    calc load (Stmt.partsList (h₁ ++ s ++ h₂)) + load (Expr.binary op d r' t facts i).parts
        = (load (Stmt.partsList h₁) + (load (Stmt.partsList s) + load d.parts)) +
            (load (Stmt.partsList h₂) + load r'.parts) := by
          simp only [Stmt.partsList_append, Expr.parts, load_cons, load_append, Expr.load,
            if_neg hop]
          abel
      _ = due l.parts + due r.parts := by rw [hd, hl', hr']

end Operators

/-! ## The walk -/

mutual

theorem accounts_expr : ∀ e : Expr, Accounts (expr e) (load e.parts).1 fun p =>
    load (Stmt.partsList p.1) + load p.2.parts = due e.parts
  | .const _ _ | .local _ _ | .function _ _ | .builtin _ _ => .pure rfl
  | .unary op e i | .len e i => by
      simp only [Expr.parts, load_cons, Expr.load, zero_add, due_cons, Expr.due]
      exact .before (accounts_expr e) fun ⟨h, d⟩ hd => .pure <| by
        simpa only [Expr.parts, load_cons, Expr.load, zero_add] using hd
  | .alloc t e s i => by
      simp only [Expr.parts, load_cons, Expr.load, Prod.fst_add, zero_add, due_cons, Expr.due]
      exact .before (accounts_expr e) fun ⟨h, d⟩ hd => .pure <| by
        simp only [Expr.parts, load_cons, Expr.load, ← hd]
        abel
  | .binary op l r t facts i => by
      by_cases hop : op = .map
      · subst hop
        exact accounts_map (accounts_expr l) (accounts_expr r)
      · exact accounts_operator (accounts_expr l) (accounts_expr r) hop
  | .call f as i => by
      simp only [Expr.parts, load_cons, Expr.load, load_append, Prod.fst_add, zero_add, due_cons,
        Expr.due, due_append]
      unfold expr
      refine .bind (accounts_expr f) fun ⟨h₁, f'⟩ hf => .before (accounts_exprs _ as).reached
        fun ⟨h₂, es⟩ ⟨hes, _, _, hreached⟩ => ?_
      -- the callee leads the list of what is done, so the list does not come back empty
      have hlength := length_of_exprs hreached
      cases es with
      | nil =>
          simp only [List.length_nil, List.length_singleton] at hlength
          omega
      | cons d ds =>
          refine .pure ?_
          calc load (Stmt.partsList (h₁ ++ h₂)) + load (Expr.call d ds i).parts
              = load (Stmt.partsList h₁) +
                  (load (Stmt.partsList h₂) + load (Expr.partsList (d :: ds))) := by
                simp only [Stmt.partsList_append, Expr.parts, Expr.partsList, load_append, load_cons,
                  Expr.load]
                abel
            _ = (load (Stmt.partsList h₁) + load f'.parts) + due (Expr.partsList as) := by
                rw [hes, Expr.partsList, Expr.partsList, List.append_nil, add_assoc]
            _ = due f.parts + due (Expr.partsList as) := by rw [hf]
  | .index s p b i => by
      simp only [Expr.parts, load_cons, Expr.load, load_append, Prod.fst_add, zero_add, due_cons,
        Expr.due, due_append]
      refine .bind (accounts_expr s) fun ⟨h₁, s'⟩ hs => .before (accounts_expr p)
        fun ⟨h₂, p'⟩ hp => .after (accounts_spillBefore _ _) fun ⟨h, d⟩ hd => .pure ?_
      calc load (Stmt.partsList (h₁ ++ h ++ h₂)) + load (Expr.index d p' b i).parts
          = (load (Stmt.partsList h₁) + (load (Stmt.partsList h) + load d.parts)) +
              (load (Stmt.partsList h₂) + load p'.parts) := by
            simp only [Stmt.partsList_append, Expr.parts, load_append, load_cons, Expr.load]
            abel
        _ = due s.parts + due p.parts := by rw [hd, hs, hp]
  | .slice es s i => by
      simp only [Expr.parts, load_cons, Expr.load, Prod.fst_add, zero_add, due_cons, Expr.due]
      exact .before (accounts_exprs _ es) fun ⟨h, ds⟩ hds => .pure <| by
        simp only [Expr.partsList, load_nil, zero_add, Expr.parts, load_cons, Expr.load] at hds ⊢
        rw [← hds]
        abel
  | .closure _ _ _ b _ => by
      simp only [Expr.parts, load_cons, Expr.load, zero_add, due_cons, Expr.due]
      exact .before (accounts_block b) fun b' hb => .pure <| by
        simpa only [Stmt.partsList, load_nil, Expr.parts, load_cons, Expr.load, zero_add] using hb

theorem accounts_exprs : ∀ done es : List Expr, Accounts (exprs done es)
    (load (Expr.partsList es)).1 fun p =>
      load (Stmt.partsList p.1) + load (Expr.partsList p.2) =
        load (Expr.partsList done) + due (Expr.partsList es)
  | done, [] => .pure (add_comm _ _)
  | done, e :: es => by
      simp only [Expr.partsList, load_append, Prod.fst_add, due_append]
      refine .bind (accounts_expr e) fun ⟨h, e'⟩ he => .after (accounts_spillAllBefore _ _)
        fun ⟨s, done'⟩ hdone => .before (accounts_exprs _ es) fun ⟨h', all⟩ hall => .pure ?_
      -- what is done already may be spilled, and then it is part of what is done for the rest
      calc load (Stmt.partsList (s ++ h ++ h')) + load (Expr.partsList all)
          = load (Stmt.partsList s) + load (Stmt.partsList h) +
              (load (Stmt.partsList h') + load (Expr.partsList all)) := by
            simp only [Stmt.partsList_append, load_append]
            abel
        _ = (load (Stmt.partsList s) + load (Expr.partsList done')) +
              (load (Stmt.partsList h) + load e'.parts) + due (Expr.partsList es) := by
            rw [hall]
            simp only [Expr.partsList_append, Expr.partsList, List.append_nil, load_append]
            abel
        _ = load (Expr.partsList done) + (due e.parts + due (Expr.partsList es)) := by
            rw [hdone, he, add_assoc]

theorem accounts_stmt : ∀ s : Stmt, Accounts (stmt s) (load s.parts).1 fun ss =>
    load (Stmt.partsList ss) = due s.parts
  | .bind x e | .assign x e | .expr e =>
      .before (accounts_expr e) fun ⟨h, d⟩ hd => .pure ((load_snoc h _).trans hd)
  | .store s p v b => by
      simp only [Stmt.parts, load_append, Prod.fst_add, due_append, add_assoc]
      refine .bind (accounts_expr s) fun ⟨h₁, s₁⟩ hs => .bind (accounts_expr p)
        fun ⟨h₂, p₁⟩ hp => .after (accounts_spillBefore _ _) fun ⟨k₁, s₂⟩ hs₂ =>
          .before (accounts_expr v) fun ⟨h₃, v₁⟩ hv => .after (accounts_spillBefore _ _)
            fun ⟨k₂, s₃⟩ hs₃ => .after (accounts_spillBefore _ _) fun ⟨k₃, p₂⟩ hp₂ => .pure ?_
      -- the sequence may be spilled twice, for the position and for the value
      calc load (Stmt.partsList (h₁ ++ k₁ ++ h₂ ++ k₂ ++ k₃ ++ h₃ ++ [.store s₃ p₂ v₁ b]))
          = (load (Stmt.partsList h₁) + (load (Stmt.partsList k₁) +
                (load (Stmt.partsList k₂) + load s₃.parts))) +
              ((load (Stmt.partsList h₂) + (load (Stmt.partsList k₃) + load p₂.parts)) +
                (load (Stmt.partsList h₃) + load v₁.parts)) := by
            rw [load_snoc, Stmt.parts]
            simp only [Stmt.partsList_append, load_append]
            abel
        _ = due s.parts + (due p.parts + due v.parts) := by rw [hs₃, hs₂, hs, hp₂, hp, hv]
  | .return es =>
      .before (accounts_exprs _ es) fun ⟨h, ds⟩ hds => .pure <| by
        rw [load_snoc, Stmt.parts, Stmt.parts, hds, Expr.partsList, load_nil, zero_add]
  | .if c t e => by
      simp only [Stmt.parts, load_append, Prod.fst_add, due_append, add_assoc]
      refine .bind (accounts_expr c) fun ⟨h, d⟩ hd => .bind (accounts_block t) fun t' ht =>
        .before (accounts_block e) fun e' he => .pure ?_
      calc load (Stmt.partsList (h ++ [.if d t' e']))
          = (load (Stmt.partsList h) + load d.parts) +
              (load (Stmt.partsList t') + load (Stmt.partsList e')) := by
            rw [load_snoc, Stmt.parts, load_append, load_append]
            abel
        _ = due c.parts + (due (Stmt.partsList t) + due (Stmt.partsList e)) := by rw [hd, ht, he]
  | .while c b => by
      simp only [Stmt.parts, load_append, Prod.fst_add, due_append]
      refine .bind (accounts_expr c) fun ⟨h, d⟩ hd => .before (accounts_block b)
        fun b' hb => .pure ?_
      rw [Stmt.partsList_singleton, load_loop, hd, hb]
  | .break => .pure rfl
  | .for x a z b => by
      simp only [Stmt.parts, load_append, Prod.fst_add, due_append, add_assoc]
      refine .bind (accounts_expr a) fun ⟨h₁, a₁⟩ ha => .bind (accounts_expr z)
        fun ⟨h₂, z₁⟩ hz => .after (accounts_spillBefore _ _) fun ⟨s, a₂⟩ ha₂ =>
          .before (accounts_block b) fun b' hb => .pure ?_
      calc load (Stmt.partsList (h₁ ++ s ++ h₂ ++ [.for x a₂ z₁ b']))
          = (load (Stmt.partsList h₁) + (load (Stmt.partsList s) + load a₂.parts)) +
              ((load (Stmt.partsList h₂) + load z₁.parts) + load (Stmt.partsList b')) := by
            rw [load_snoc, Stmt.parts]
            simp only [Stmt.partsList_append, load_append]
            abel
        _ = due a.parts + (due z.parts + due (Stmt.partsList b)) := by rw [ha₂, ha, hz, hb]

theorem accounts_block : ∀ ss : List Stmt, Accounts (block ss) (load (Stmt.partsList ss)).1 fun ss' =>
    load (Stmt.partsList ss') = due (Stmt.partsList ss)
  | [] => .pure rfl
  | s :: ss => by
      simp only [Stmt.partsList, load_append, Prod.fst_add, due_append]
      refine .bind (accounts_stmt s) fun ss₁ hs => .before (accounts_block ss)
        fun ss₂ hss => .pure ?_
      rw [Stmt.partsList_append, load_append, hs, hss]

end

/-! ## Code without maps -/

/-- A step does nothing. -/
def Idle {α : Type} (x : Lower α) (a : α) : Prop := ∀ st : State, Lowers x st a st

namespace Idle

variable {α β : Type} {x : Lower α} {f : α → Lower β} {a : α} {b : β}

theorem pure (a : α) : Idle (pure a) a := fun _ => rfl

theorem bind (hx : Idle x a) (hf : Idle (f a) b) : Idle (x >>= f) b := fun st => (hx st).bind (hf st)

end Idle

theorem idle_spillBefore (e : Expr) : Idle (spillBefore [] e) ([], e) := fun _ => rfl

theorem idle_spillAllBefore (es : List Expr) : Idle (spillAllBefore [] es) ([], es) := by
  induction es with
  | nil => exact .pure _
  | cons e es ih => exact .bind (idle_spillBefore e) (.bind ih (.pure _))

mutual

theorem idle_expr : ∀ {e : Expr}, (load e.parts).1 = 0 → Idle (expr e) ([], e)
  | .const _ _, _ | .local _ _, _ | .function _ _, _ | .builtin _ _, _ => .pure _
  | .unary op e i, h | .len e i, h => by
      simp only [Expr.parts, load_cons, Expr.load, zero_add] at h
      exact .bind (idle_expr h) (.pure _)
  | .alloc t e s i, h => by
      simp only [Expr.parts, load_cons, Expr.load, Prod.fst_add, zero_add] at h
      exact .bind (idle_expr h) (.pure _)
  | .binary op l r t facts i, h => by
      simp only [Expr.parts, load_cons, load_append, Expr.load, Prod.fst_add, Nat.add_eq_zero_iff] at h
      have hop : op ≠ .map := by
        rintro rfl
        simp at h
      unfold expr
      rw [if_neg hop]
      refine .bind (idle_expr h.2.1) (.bind (idle_expr h.2.2) ?_)
      dsimp only
      split
      · exact .pure _
      · exact .bind (idle_spillBefore l) (.pure _)
  | .call f as i, h => by
      simp only [Expr.parts, load_cons, load_append, Expr.load, Prod.fst_add, Nat.add_eq_zero_iff] at h
      exact .bind (idle_expr h.2.1) (.bind (idle_exprs h.2.2) (.pure _))
  | .index s p b i, h => by
      simp only [Expr.parts, load_cons, load_append, Expr.load, Prod.fst_add, Nat.add_eq_zero_iff] at h
      exact .bind (idle_expr h.2.1) (.bind (idle_expr h.2.2) (.bind (idle_spillBefore s) (.pure _)))
  | .slice es s i, h => by
      simp only [Expr.parts, load_cons, Expr.load, Prod.fst_add, zero_add] at h
      exact .bind (idle_exprs h) (.pure _)
  | .closure ps rs cs b i, h => by
      simp only [Expr.parts, load_cons, Expr.load, zero_add] at h
      exact .bind (idle_block h) (.pure _)

theorem idle_exprs : ∀ {es done : List Expr}, (load (Expr.partsList es)).1 = 0 →
    Idle (exprs done es) ([], done ++ es)
  | [], done, _ => by
      rw [List.append_nil]
      exact .pure _
  | e :: es, done, h => by
      simp only [Expr.partsList, load_append, Prod.fst_add, Nat.add_eq_zero_iff] at h
      have hrest : Idle (exprs (done ++ [e]) es) ([], done ++ [e] ++ es) := idle_exprs h.2
      rw [List.append_assoc] at hrest
      exact .bind (idle_expr h.1) (.bind (idle_spillAllBefore done) (.bind hrest (.pure _)))

theorem idle_stmt : ∀ {s : Stmt}, (load s.parts).1 = 0 → Idle (stmt s) [s]
  | .bind _ _, h | .assign _ _, h | .expr _, h => .bind (idle_expr h) (.pure _)
  | .store s p v b, h => by
      simp only [Stmt.parts, load_append, Prod.fst_add, Nat.add_eq_zero_iff] at h
      exact .bind (idle_expr h.1.1) (.bind (idle_expr h.1.2) (.bind (idle_spillBefore s)
        (.bind (idle_expr h.2) (.bind (idle_spillBefore s) (.bind (idle_spillBefore p) (.pure _))))))
  | .return _, h => .bind (idle_exprs h) (.pure _)
  | .if c t e, h => by
      simp only [Stmt.parts, load_append, Prod.fst_add, Nat.add_eq_zero_iff] at h
      exact .bind (idle_expr h.1.1) (.bind (idle_block h.1.2) (.bind (idle_block h.2) (.pure _)))
  | .while c b, h => by
      simp only [Stmt.parts, load_append, Prod.fst_add, Nat.add_eq_zero_iff] at h
      exact .bind (idle_expr h.1) (.bind (idle_block h.2) (.pure _))
  | .break, _ => .pure _
  | .for x a z b, h => by
      simp only [Stmt.parts, load_append, Prod.fst_add, Nat.add_eq_zero_iff] at h
      exact .bind (idle_expr h.1.1) (.bind (idle_expr h.1.2) (.bind (idle_spillBefore a)
        (.bind (idle_block h.2) (.pure _))))

theorem idle_block : ∀ {ss : List Stmt}, (load (Stmt.partsList ss)).1 = 0 → Idle (block ss) ss
  | [], _ => .pure _
  | s :: ss, h => by
      simp only [Stmt.partsList, load_append, Prod.fst_add, Nat.add_eq_zero_iff] at h
      exact .bind (idle_stmt h.1) (.bind (idle_block h.2) (.pure _))

end

end Lowering

/-! ## Functions and modules -/

/-- A function and its lowering: what is kept, what is added, and that nothing is lost. -/
structure Function.Accounted (f f' : Function) : Prop where
  name : f'.name = f.name
  params : f'.params = f.params
  results : f'.results = f.results
  span : f'.span = f.span
  nextSite : f'.ctx.nextSite = f.ctx.nextSite
  locals : ∃ added, f'.ctx.locals.toList = f.ctx.locals.toList ++ added ∧
    (∀ info ∈ added, info.temp = true ∧ info.name.toList.head? = some '$') ∧
    (added.map LocalInfo.name).Nodup
  mapCount : f'.mapCount = 0
  /-- Every map has a site for its result. -/
  resultSites : f.resultSites.length = f.mapCount
  sites : (f'.sites : Multiset Site) = f.sites + f.resultSites

/-- The maps in code without malformed maps have result sites. -/
theorem length_resultSites {ps : List Expr} (h : firstBreach ps = none) :
    (ps.filterMap Expr.resultSite?).length = ps.countP Expr.isMap := by
  rw [firstBreach_eq_none_iff] at h
  induction ps with
  | nil => rfl
  | cons e ps ih =>
      rw [List.forall_mem_cons] at h
      have hrest := ih h.2
      cases e with
      | binary op l r t facts i =>
          by_cases hop : op = .map
          · cases facts with
            | none => exact absurd ⟨hop, .inl rfl⟩ h.1
            | some facts => simp [Expr.resultSite?, Expr.isMap, hop, hrest]
          · simp [Expr.resultSite?, Expr.isMap, hop, hrest]
      | _ => simpa [List.filterMap_cons, Expr.resultSite?, Expr.isMap] using hrest

theorem Function.accounted_of_lower {f f' : Function} {n : Nat} (h : f.lower = (.ok n, f')) :
    n = f.mapCount ∧ f.Accounted f' := by
  rcases f.lower_cases with ⟨body, st, hbody, hnone, heq⟩ | ⟨b, ctx, added, -, -, heq⟩
  · rw [heq] at h
    cases h
    -- the code of the function is accounted for by one walk, its table of locals by another
    obtain ⟨hcount, hload⟩ := accounts_block f.body _ _ _ hbody
    obtain ⟨⟨added, hadded⟩, -⟩ := ends_block respected_adds f.body ⟨f.ctx, 0⟩
    rw [show (block f.body).run.run ⟨f.ctx, 0⟩ = (.ok body, st) from hbody] at hadded
    rw [load_eq, due_eq, Prod.mk.injEq] at hload
    refine ⟨?_, rfl, rfl, rfl, rfl, hadded.nextSite, ?_, hload.1, length_resultSites hnone, hload.2⟩
    · rw [hcount, Nat.zero_add, load_eq]
      rfl
    · exact ⟨added, hadded.locals,
        fun info hinfo => ⟨hadded.temp info hinfo, hadded.dollar info hinfo⟩, hadded.nodup⟩
  · rw [heq] at h
    cases h

theorem Function.lower_of_mapCount_eq_zero {f : Function} (h : f.mapCount = 0) :
    f.lower = (.ok 0, f) := by
  have hidle : Lowers (block f.body) ⟨f.ctx, 0⟩ f.body ⟨f.ctx, 0⟩ :=
    idle_block (by rw [load_eq]; exact h) _
  unfold Function.lower
  rw [show (block f.body).run.run ⟨f.ctx, 0⟩ = (.ok f.body, ⟨f.ctx, 0⟩) from hidle]

theorem Lowering.functions_of_mapCount_eq_zero : ∀ {fs : List Function},
    (∀ f ∈ fs, f.mapCount = 0) → functions Function.lower fs = (.ok 0, fs)
  | [], _ => rfl
  | f :: fs, h => by
      rw [List.forall_mem_cons] at h
      simp only [functions, Function.lower_of_mapCount_eq_zero h.1, functions_of_mapCount_eq_zero h.2]
      rfl

/-- What lowering answers is the sum of what it answers for the functions. -/
theorem Lowering.functions_ok {fs gs : List Function} {n : Nat}
    (h : functions Function.lower fs = (.ok n, gs)) : n = (fs.map Function.mapCount).sum := by
  induction fs generalizing gs n with
  | nil =>
      cases h
      rfl
  | cons f fs ih =>
      obtain ⟨k, f', n', fs', hf, hrest, rfl, -⟩ := functions_cons_ok h
      rw [List.map_cons, List.sum_cons, (Function.accounted_of_lower hf).1, ih hrest]

theorem Module.lower_of_mapCount_eq_zero {m : Module} (h : ∀ f ∈ m.functions, f.mapCount = 0) :
    m.lower = (.ok 0, m) := by
  simp only [Module.lower, functions_of_mapCount_eq_zero h]

/-- **Lowering accounts for all code.** If a module is lowered, the answer is the number of maps in it,
and no map is left. A function keeps its name, parameters, results, span and counter of allocation
sites. Its table of locals only grows, by temporaries whose names start with a dollar and are
different from each other. Its allocation sites are the old ones and one for each map, the one for its
result. A module without maps is lowered to itself, so lowering twice is lowering once. -/
theorem Module.lower_accounts (m : Module) :
    (∀ n m', m.lower = (.ok n, m') →
      n = (m.functions.map Function.mapCount).sum ∧
      List.Forall₂ Function.Accounted m.functions m'.functions ∧ m'.lower = (.ok 0, m')) ∧
    ((∀ f ∈ m.functions, f.mapCount = 0) → m.lower = (.ok 0, m)) := by
  refine ⟨fun n m' h => ?_, Module.lower_of_mapCount_eq_zero⟩
  have hall : List.Forall₂ Function.Accounted m.functions m'.functions :=
    Module.forall₂_of_lower (fun f _ k f' hf => (Function.accounted_of_lower hf).2) h
  refine ⟨?_, hall, Module.lower_of_mapCount_eq_zero fun f' hf' => ?_⟩
  · simp only [Module.lower, Prod.mk.injEq] at h
    exact functions_ok (Prod.ext h.1 rfl)
  · obtain ⟨f, -, hf⟩ := mem_of_forall₂_right hall hf'
    exact hf.mapCount

/-- A function with two maps in each other in the condition of a loop, behind a conjunction, and one
in a closure in the body of the loop; and one without maps that creates a sequence. -/
theorem Module.lower_accounts_loop :
    let i : Info := ⟨.slice .i64, ⟨3, 5⟩⟩
    let map (s : Expr) (site : Nat) : Expr :=
      .binary .map s (.builtin .str i) none (some { result := ⟨site⟩ }) i
    let seq : Expr := .local ⟨0⟩ i
    let plain : Function := ⟨"plain", [], [], [.expr (.slice [seq] ⟨0⟩ i)], {}, ⟨0, 0⟩⟩
    let m : Module := ⟨[⟨"main", [⟨0⟩], [],
      [.while (.binary .and seq (map (map seq 4) 2) none none i)
        [.expr (.closure [] [] [] [.return [map (.slice [seq] ⟨1⟩ i) 3]] i)]],
      { locals := #[⟨"seq", .slice .i64, false⟩] }, ⟨0, 0⟩⟩, plain]⟩
    m.lower = (.ok 3, m.lower.2) ∧ List.Forall₂ Function.Accounted m.functions m.lower.2.functions ∧
      m.lower.2.lower = (.ok 0, m.lower.2) ∧ Module.lower ⟨[plain]⟩ = (.ok 0, ⟨[plain]⟩) := by
  intro i map seq plain m
  have hcount : m.lower.1.toOption = some 3 := by decide +kernel
  have hlower : m.lower = (.ok 3, m.lower.2) := by
    cases hr : m.lower.1 with
    | error b =>
        rw [hr] at hcount
        cases hcount
    | ok n =>
        rw [hr] at hcount
        cases hcount
        rw [← hr]
  obtain ⟨-, hall, hagain⟩ := m.lower_accounts.1 _ _ hlower
  exact ⟨hlower, hall, hagain, (Module.lower_accounts ⟨[plain]⟩).2 (by decide)⟩

end Rivulet.Ir
