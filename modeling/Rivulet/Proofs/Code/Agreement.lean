import Rivulet.Proofs.Check.WithoutCaptures
import Rivulet.Proofs.Code.Settled
import Rivulet.Proofs.Code.Wholeness
import Rivulet.Source.Parser

set_option autoImplicit false

/-! # The two type checkers agree

Programs are checked twice: once as they are written, with hints that flow from the outside in, and
once as code, where every type is derived again from the parts alone. The second check never finds
anything that the first did not, and every type that it derives is the one that is written on the
code already. Both halves are one chain: what was checked is well typed, code that is made of a
well-typed tree is well typed, and well-typed code is left as it is by validation.

Being well typed is more than what is needed here, since it also asks for captures that are complete.
What the captures of a program are does not matter to the two checkers, nor to what the generator
makes of anything else. So the chain is gone through with captures that suit it, and a program with
other captures has the same code apart from them. -/

namespace Rivulet.Ir

/-! ## The generator and captures -/

/-- If a step of the generator succeeds, another step does so too, and gives what `f` makes of the
result of the first. -/
def Make.Follows {α β : Type} (make : Make α) (f : α → β) (make' : Make β) : Prop :=
  ∀ ctx a ctx', Makes make ctx a ctx' → Makes make' ctx (f a) ctx'

namespace Make

namespace Follows

variable {α β γ δ : Type} {make : Make α} {make' : Make β} {f : α → β} {g : γ → δ}

theorem self : Follows make id make := fun _ _ _ h => h

theorem pure {a : α} {b : β} (h : f a = b) : Follows (pure a) f (pure b) := by
  intro ctx c ctx' hc
  obtain ⟨rfl, rfl⟩ := hc.pure_inv
  rw [h]
  exact Makes.pure _ _

theorem bind {next : α → Make γ} {next' : β → Make δ} (h : Follows make f make')
    (hnext : ∀ a, Follows (next a) g (next' (f a))) : Follows (make >>= next) g (make' >>= next') := by
  intro ctx c ctx' hc
  obtain ⟨a, ctx₁, ha, hc⟩ := hc.bind_inv
  exact (h ctx a ctx₁ ha).bind (hnext a ctx₁ c ctx' hc)

end Follows

/-- Looking up captures changes nothing. -/
theorem follows_captures (scope : Scope) (cs : List String) (s : Span) :
    Follows (cs.mapM fun x => lookup scope x s) (fun _ => [])
      (([] : List String).mapM fun x => lookup scope x s) := by
  intro ctx ys ctx' h
  rw [(captures_inv h).2]
  exact Makes.pure _ _

theorem operandType_withoutCaptures (op : BinaryOp) (l r : Expr) (s : Span) :
    operandType op l.withoutCaptures r.withoutCaptures s = operandType op l r s := by
  simp only [operandType, Expr.ty_withoutCaptures]

mutual

/-- **Of an expression without captures, the same code is made without captures.** -/
theorem follows_expr : ∀ (e : Typed.Expr) (scope : Scope),
    Follows (expr scope e) Expr.withoutCaptures (expr scope e.withoutCaptures)
  | .int _ _, _ | .bool _ _, _ | .str _ _, _ | .function _ _, _ | .builtin _ _, _ =>
      .bind .self fun _ => .pure rfl
  | .local _ _, _ => .bind .self fun _ => .bind .self fun _ => .pure rfl
  | .unary _ e _, scope => .bind .self fun _ => .bind (follows_expr e scope) fun _ => .pure rfl
  | .binary op l r i, scope =>
      .bind .self fun _ => .bind (follows_expr l scope) fun l' =>
        .bind (follows_expr r scope) fun r' => by
          rw [operandType_withoutCaptures]
          exact .bind .self fun _ => .pure rfl
  | .seq es _, scope =>
      .bind .self fun _ => .bind (follows_exprs es scope) fun _ => .bind .self fun _ => .pure rfl
  | .index e p _, scope =>
      .bind .self fun _ => .bind (follows_expr e scope) fun _ =>
        .bind (follows_expr p scope) fun _ => .pure rfl
  | .call f as i, scope => by
      by_cases hlen : ∃ j a, f = .builtin .len j ∧ as = [a]
      · obtain ⟨j, a, rfl, rfl⟩ := hlen
        exact .bind .self fun _ => .bind (follows_expr a scope) fun _ => .pure rfl
      · have hcall := expr_call scope i fun j a hf has => hlen ⟨j, a, hf, has⟩
        have hlen' : ∀ j a, f.withoutCaptures = .builtin .len j →
            Typed.Expr.withoutCapturesList as ≠ [a] := by
          intro j a hf has
          rcases as with _ | ⟨b, _ | ⟨c, bs⟩⟩
          · cases has
          · cases f <;> cases hf
            exact hlen ⟨_, _, rfl, rfl⟩
          · cases has
        rw [hcall, Typed.Expr.withoutCaptures, expr_call scope i hlen']
        exact .bind .self fun _ => .bind (follows_expr f scope) fun _ =>
          .bind (follows_exprs as scope) fun _ => .pure rfl
  | .closure ps rs b cs i, scope =>
      .bind .self fun _ => .bind (follows_captures scope cs i.span) fun _ => .bind .self fun inner =>
        .bind .self fun _ => .bind (follows_block b inner.2) fun _ => .pure rfl
  | .error i, _ => fun ctx a ctx' h => by
      obtain ⟨t, ctx₁, -, h₁⟩ := h.bind_inv
      cases h₁

theorem follows_exprs : ∀ (es : List Typed.Expr) (scope : Scope),
    Follows (exprs scope es) Expr.withoutCapturesList (exprs scope (Typed.Expr.withoutCapturesList es))
  | [], _ => .pure rfl
  | e :: es, scope =>
      .bind (follows_expr e scope) fun _ => .bind (follows_exprs es scope) fun _ => .pure rfl

theorem follows_stmt : ∀ (s : Typed.Stmt) (scope : Scope),
    Follows (stmt scope s) (Prod.map Stmt.withoutCaptures id) (stmt scope s.withoutCaptures)
  | .declare _ _ _ e _, scope =>
      .bind (follows_expr e scope) fun _ => .bind .self fun _ => .bind .self fun _ => .pure rfl
  | .assign _ e _, scope => .bind .self fun _ => .bind (follows_expr e scope) fun _ => .pure rfl
  | .if c t e _, scope =>
      .bind (follows_expr c scope) fun _ => .bind (follows_block t scope) fun _ =>
        .bind (follows_block e scope) fun _ => .pure rfl
  | .while c b _, scope =>
      .bind (follows_expr c scope) fun _ => .bind (follows_block b scope) fun _ => .pure rfl
  | .return es _, scope => .bind (follows_exprs es scope) fun _ => .pure rfl
  | .expr e _, scope => .bind (follows_expr e scope) fun _ => .pure rfl

theorem follows_block : ∀ (ss : List Typed.Stmt) (scope : Scope),
    Follows (block scope ss) Stmt.withoutCapturesBlock
      (block scope (Typed.Stmt.withoutCapturesBlock ss))
  | [], _ => .pure rfl
  | s :: ss, scope =>
      .bind (follows_stmt s scope) fun r => .bind (follows_block ss r.2) fun _ => .pure rfl

end

end Make

/-- Of a function without captures, the same code is made without captures. -/
theorem Function.ofTyped_withoutCaptures {f : Typed.Function} {g : Function}
    (h : Function.ofTyped f = .ok g) : Function.ofTyped f.withoutCaptures = .ok g.withoutCaptures := by
  have hfollows : Make.Follows (Make.function f)
      (fun r => (r.1, r.2.1, Stmt.withoutCapturesBlock r.2.2)) (Make.function f.withoutCaptures) :=
    .bind .self fun inner => .bind .self fun _ =>
      .bind (Make.follows_block f.body inner.2) fun _ => .pure rfl
  unfold Function.ofTyped at h ⊢
  cases hrun : (Make.function f).run {} with
  | error b =>
      rw [hrun] at h
      cases h
  | ok r =>
      rw [hrun] at h
      cases h
      have hrun' := hfollows {} r.1 r.2 hrun
      unfold Makes at hrun'
      rw [hrun']
      rfl

/-- **The generator does not look at captures**, apart from finding the locals that they mean. -/
theorem Module.ofTyped_withoutCaptures {p : Typed.Program} {m : Module}
    (h : Module.ofTyped p = .ok m) : Module.ofTyped p.withoutCaptures = .ok m.withoutCaptures := by
  rw [Module.ofTyped_eq_ok_iff] at h ⊢
  simp only [Typed.Program.withoutCaptures, Module.withoutCaptures, List.forall₂_map_left_iff,
    List.forall₂_map_right_iff]
  exact h.imp fun _ _ hfg => Function.ofTyped_withoutCaptures hfg

/-! ## Agreement -/

/-- Code that was made of a checked program is well typed, if its captures have been resolved. -/
theorem Module.wellTyped_of_check {p : Source.Program} {m : Module}
    (hcheck : (Typed.Program.check p.resolve).findings = [])
    (hm : Module.ofTyped (Typed.Program.check p.resolve).value = .ok m) : m.WellTyped :=
  Module.wellTyped_of_ofTyped
    (Check.checkProgram_wellTyped (p.whole_resolve.1 (Module.whole_of_ofTyped hm)) hcheck) hm

/-- Code that was made of a checked program is settled without its captures. -/
theorem Module.settled_of_check {p : Source.Program} {m : Module}
    (hcheck : (Typed.Program.check p).findings = [])
    (hm : Module.ofTyped (Typed.Program.check p).value = .ok m) : m.withoutCaptures.Settled := by
  obtain ⟨t, ht, hcaptures, hsame⟩ :=
    Typed.Program.exists_wellTyped_of_check (Module.whole_of_ofTyped hm) hcheck
  obtain ⟨n, hn⟩ := (Module.exists_ofTyped_iff ht).2 hcaptures
  -- the code of `t` is well typed, and it is that of the program apart from captures
  have hsettled := (Module.wellTyped_of_ofTyped ht hn).settled.withoutCaptures
  have hboth := Module.ofTyped_withoutCaptures hn
  rw [hsame, Module.ofTyped_withoutCaptures hm, Except.ok.injEq] at hboth
  rw [hboth]
  exact hsettled

/-- **Validation agrees with the checker.** If the checker has nothing to report about a program and
code can be made of it, then validation has nothing to report about the code and leaves it exactly
as it is, with all the types that are written on it. -/
theorem Module.validate_eq_self_of_check (p : Source.Program) (m : Module)
    (hcheck : (Typed.Program.check p).findings = [])
    (hm : Module.ofTyped (Typed.Program.check p).value = .ok m) :
    m.validate.findings = [] ∧ m.validate.value = m := by
  rw [Module.validate_of_settled_withoutCaptures (Module.settled_of_check hcheck hm)]
  exact ⟨rfl, rfl⟩

set_option maxRecDepth 100000 in
/-- The two checkers agree on a program with a map, a capture and a name that is declared twice. -/
theorem Module.validate_eq_self_of_check_redeclared :
    let p := (Source.Program.ofSource
      "function f() { k := 2; k := [1] |> x -> x * k; println(k); }").value
    ∃ m, (Typed.Program.check p).findings = [] ∧
      Module.ofTyped (Typed.Program.check p).value = .ok m ∧
        m.validate.findings = [] ∧ m.validate.value = m := by
  intro p
  have hcheck : (Typed.Program.check p).findings = [] := by decide +kernel
  have hmade : (Module.ofTyped (Typed.Program.check p).value).toOption.isSome = true := by
    decide +kernel
  cases hm : Module.ofTyped (Typed.Program.check p).value with
  | error b => rw [hm] at hmade; cases hmade
  | ok m => exact ⟨m, hcheck, rfl, Module.validate_eq_self_of_check p m hcheck hm⟩

end Rivulet.Ir
