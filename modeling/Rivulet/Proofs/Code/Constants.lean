import Rivulet.Proofs.Check.Constants
import Rivulet.Proofs.Code.Generation
import Rivulet.Proofs.Code.MapFacts
import Rivulet.Proofs.Code.Nesting

set_option autoImplicit false

/-! # Constants in code

Code does not say which of its locals were declared as constants. `Stmt.constantsBlock` reads it off
the typed block from which the code was made, by going through the two side by side. What the checker
made sure of by names holds of the numbers then: no assignment in the code is to a local that was
declared as a constant.

For that the two scopes have to find the same declaration. Locals are numbered in the order in which
they are declared, so `Typed.Stmt.flagsBlock` can say in advance, number by number, which locals will
be constants; a table `K` of these answers is fixed for the whole function. The scope of the generator
fits the marks of the checker if entry by entry the names are the same and `K` gives the mark
(`Fits`). Every step of the generator keeps that (`Numbers`).

Code that was made of a program has no loops but `while` and does not write into sequences. That it
has none of this, and assigns to certain locals only, is said by `Stmt.PlainBlock`. -/

namespace Rivulet.Typed

/-! ## The order of declarations -/

mutual

/-- The locals that are declared in an expression, in order, each by whether it is a constant. -/
def Expr.flags : Expr → List Bool
  | .int _ _ | .bool _ _ | .str _ _ | .local _ _ | .function _ _ | .builtin _ _ | .error _ => []
  | .unary _ e _ => e.flags
  | .binary _ l r _ => l.flags ++ r.flags
  | .seq es _ => Expr.flagsList es
  | .index e p _ => e.flags ++ p.flags
  | .call f as _ => f.flags ++ Expr.flagsList as
  | .closure ps _ b _ _ => ps.map (fun _ => false) ++ Stmt.flagsBlock b
termination_by structural e => e

/-- The locals that are declared in several expressions. -/
def Expr.flagsList : List Expr → List Bool
  | [] => []
  | e :: es => e.flags ++ Expr.flagsList es
termination_by structural es => es

/-- The locals that are declared in a statement. A local comes after those in its value. -/
def Stmt.flags : Stmt → List Bool
  | .declare c _ _ e _ => e.flags ++ [c]
  | .assign _ e _ | .expr e _ => e.flags
  | .if c t e _ => c.flags ++ (Stmt.flagsBlock t ++ Stmt.flagsBlock e)
  | .while c b _ => c.flags ++ Stmt.flagsBlock b
  | .return es _ => Expr.flagsList es
termination_by structural s => s

/-- The locals that are declared in a block. -/
def Stmt.flagsBlock : List Stmt → List Bool
  | [] => []
  | s :: ss => s.flags ++ Stmt.flagsBlock ss
termination_by structural ss => ss

end

/-- The locals that are declared in a function. -/
def Function.flags (f : Function) : List Bool :=
  f.params.map (fun _ => false) ++ Stmt.flagsBlock f.body

end Rivulet.Typed

namespace Rivulet.Ir

/-! ## The locals of constants -/

mutual

/-- The locals that constants in a typed expression have become in its code. -/
def Expr.constants : Typed.Expr → Expr → List LocalId
  | .unary _ e _, .unary _ e' _ => Expr.constants e e'
  | .binary _ l r _, .binary _ l' r' _ _ _ => Expr.constants l l' ++ Expr.constants r r'
  | .seq es _, .slice es' _ _ => Expr.constantsList es es'
  | .index e p _, .index e' p' _ _ => Expr.constants e e' ++ Expr.constants p p'
  | .call _ as _, .len e' _ => Expr.constantsList as [e']
  | .call f as _, .call f' as' _ => Expr.constants f f' ++ Expr.constantsList as as'
  | .closure _ _ b _ _, .closure _ _ _ b' _ => Stmt.constantsBlock b b'
  | _, _ => []
termination_by structural e => e

/-- The locals that constants in typed expressions have become. -/
def Expr.constantsList : List Typed.Expr → List Expr → List LocalId
  | e :: es, e' :: es' => Expr.constants e e' ++ Expr.constantsList es es'
  | _, _ => []
termination_by structural es => es

/-- The locals that constants in a typed statement have become. A declaration becomes a binding. -/
def Stmt.constants : Typed.Stmt → Stmt → List LocalId
  | .declare c _ _ e _, .bind x e' => Expr.constants e e' ++ if c then [x] else []
  | .assign _ e _, .assign _ e' => Expr.constants e e'
  | .if c t e _, .if c' t' e' =>
      Expr.constants c c' ++ (Stmt.constantsBlock t t' ++ Stmt.constantsBlock e e')
  | .while c b _, .while c' b' => Expr.constants c c' ++ Stmt.constantsBlock b b'
  | .return es _, .return es' => Expr.constantsList es es'
  | .expr e _, .expr e' => Expr.constants e e'
  | _, _ => []
termination_by structural s => s

/-- The locals that constants in a typed block have become. -/
def Stmt.constantsBlock : List Typed.Stmt → List Stmt → List LocalId
  | s :: ss, s' :: ss' => Stmt.constants s s' ++ Stmt.constantsBlock ss ss'
  | _, _ => []
termination_by structural ss => ss

end

/-- The locals of a function that were declared as constants in the typed function. -/
def Function.constants (f : Typed.Function) (g : Function) : List LocalId :=
  Stmt.constantsBlock f.body g.body

/-! ## Plain code -/

mutual

/-- The code of an expression as a program gives it, with assignments to locals in `A` only. -/
def Expr.Plain (A : LocalId → Prop) : Expr → Prop
  | .const _ _ | .local _ _ | .function _ _ | .builtin _ _ => True
  | .unary _ e _ | .len e _ => e.Plain A
  | .binary _ l r _ _ _ => l.Plain A ∧ r.Plain A
  | .call f as _ => f.Plain A ∧ Expr.PlainList A as
  | .index s p _ _ => s.Plain A ∧ p.Plain A
  | .slice es _ _ => Expr.PlainList A es
  | .closure _ _ _ b _ => Stmt.PlainBlock A b
  | .alloc _ _ _ _ => False
termination_by structural e => e

/-- The code of several expressions as a program gives it. -/
def Expr.PlainList (A : LocalId → Prop) : List Expr → Prop
  | [] => True
  | e :: es => e.Plain A ∧ Expr.PlainList A es
termination_by structural es => es

/-- The code of a statement as a program gives it. -/
def Stmt.Plain (A : LocalId → Prop) : Stmt → Prop
  | .bind _ e | .expr e => e.Plain A
  | .assign x e => A x ∧ e.Plain A
  | .return es => Expr.PlainList A es
  | .if c t e => c.Plain A ∧ Stmt.PlainBlock A t ∧ Stmt.PlainBlock A e
  | .while c b => c.Plain A ∧ Stmt.PlainBlock A b
  | .store _ _ _ _ | .break | .for _ _ _ _ => False
termination_by structural s => s

/-- The code of a block as a program gives it. -/
def Stmt.PlainBlock (A : LocalId → Prop) : List Stmt → Prop
  | [] => True
  | s :: ss => s.Plain A ∧ Stmt.PlainBlock A ss
termination_by structural ss => ss

end

section Facts

variable {A : LocalId → Prop}

mutual

theorem Expr.plain_withMapFacts : ∀ {e : Expr}, e.Plain A →
    SiteM.Gives e.withMapFacts (Expr.Plain A)
  | .const _ _, h | .local _ _, h | .function _ _, h | .builtin _ _, h => .pure h
  | .unary _ e _, h | .len e _, h =>
      .bind (Expr.plain_withMapFacts (e := e) h) fun _ he => .pure he
  | .binary op l r t facts i, h => by
      refine .bind (Expr.plain_withMapFacts h.1) fun l' hl =>
        .bind (Expr.plain_withMapFacts h.2) fun r' hr => ?_
      split
      · exact .bind gives_freshMapFacts fun _ _ => .pure ⟨hl, hr⟩
      · exact .pure ⟨hl, hr⟩
  | .call _ _ _, h =>
      .bind (Expr.plain_withMapFacts h.1) fun _ hf =>
        .bind (Expr.plainList_withMapFactsList h.2) fun _ has => .pure ⟨hf, has⟩
  | .index _ _ _ _, h =>
      .bind (Expr.plain_withMapFacts h.1) fun _ hs =>
        .bind (Expr.plain_withMapFacts h.2) fun _ hp => .pure ⟨hs, hp⟩
  | .slice es _ _, h =>
      .bind (Expr.plainList_withMapFactsList (show Expr.PlainList A es from h)) fun _ hes => .pure hes
  | .closure _ _ _ b _, h =>
      .bind (Stmt.plainBlock_withMapFactsList (show Stmt.PlainBlock A b from h)) fun _ hb => .pure hb
  | .alloc _ _ _ _, h => h.elim

theorem Expr.plainList_withMapFactsList : ∀ {es : List Expr}, Expr.PlainList A es →
    SiteM.Gives (Expr.withMapFactsList es) (Expr.PlainList A)
  | [], h => .pure h
  | _ :: _, h =>
      .bind (Expr.plain_withMapFacts h.1) fun _ he =>
        .bind (Expr.plainList_withMapFactsList h.2) fun _ hes => .pure ⟨he, hes⟩

theorem Stmt.plain_withMapFacts : ∀ {s : Stmt}, s.Plain A →
    SiteM.Gives s.withMapFacts (Stmt.Plain A)
  | .bind _ e, h | .expr e, h => .bind (Expr.plain_withMapFacts (e := e) h) fun _ he => .pure he
  | .assign _ _, h => .bind (Expr.plain_withMapFacts h.2) fun _ he => .pure ⟨h.1, he⟩
  | .return es, h =>
      .bind (Expr.plainList_withMapFactsList (show Expr.PlainList A es from h)) fun _ hes =>
        .pure hes
  | .if _ _ _, h =>
      .bind (Expr.plain_withMapFacts h.1) fun _ hc =>
        .bind (Stmt.plainBlock_withMapFactsList h.2.1) fun _ ht =>
          .bind (Stmt.plainBlock_withMapFactsList h.2.2) fun _ he => .pure ⟨hc, ht, he⟩
  | .while _ _, h =>
      .bind (Expr.plain_withMapFacts h.1) fun _ hc =>
        .bind (Stmt.plainBlock_withMapFactsList h.2) fun _ hb => .pure ⟨hc, hb⟩
  | .store _ _ _ _, h | .break, h | .for _ _ _ _, h => h.elim

theorem Stmt.plainBlock_withMapFactsList : ∀ {ss : List Stmt}, Stmt.PlainBlock A ss →
    SiteM.Gives (Stmt.withMapFactsList ss) (Stmt.PlainBlock A)
  | [], h => .pure h
  | _ :: _, h =>
      .bind (Stmt.plain_withMapFacts h.1) fun _ hs =>
        .bind (Stmt.plainBlock_withMapFactsList h.2) fun _ hss => .pure ⟨hs, hss⟩

end

end Facts

/-! ## Numbers of locals -/

/-- The locals from number `n` on are constants or not as the flags say. -/
def Marked (K : LocalId → Bool) (n : Nat) (flags : List Bool) : Prop :=
  ∀ i c, flags[i]? = some c → K ⟨n + i⟩ = c

theorem marked_append {K : LocalId → Bool} {n : Nat} {flags flags' : List Bool} :
    Marked K n (flags ++ flags') ↔ Marked K n flags ∧ Marked K (n + flags.length) flags' := by
  constructor
  · intro h
    constructor
    · intro i c hi
      have hlt : i < flags.length := (List.getElem?_eq_some_iff.1 hi).1
      exact h i c (by rwa [List.getElem?_append_left hlt])
    · intro i c hi
      have hsum := h (flags.length + i) c (by
        rw [List.getElem?_append_right (by omega), Nat.add_sub_cancel_left]
        exact hi)
      rwa [← Nat.add_assoc] at hsum
  · rintro ⟨h, h'⟩ i c hi
    by_cases hlt : i < flags.length
    · exact h i c (by rwa [List.getElem?_append_left hlt] at hi)
    · rw [List.getElem?_append_right (by omega)] at hi
      have hsum := h' (i - flags.length) c hi
      rwa [show n + flags.length + (i - flags.length) = n + i by omega] at hsum

/-- The scope of the generator fits the marks of the checker, entry by entry. -/
def Fits (K : LocalId → Bool) (scope : Scope) (sc : Typed.Marks) : Prop :=
  List.Forall₂ (fun p q => p.1 = q.1 ∧ K p.2 = q.2) scope sc

/-- Both scopes find the same declaration of a name. -/
theorem Fits.lookup {K : LocalId → Bool} {scope : Scope} {sc : Typed.Marks}
    (h : Fits K scope sc) {x : String} {c : Bool} (hc : sc.lookup x = some c) {y : LocalId}
    (hy : scope.lookup x = some y) : K y = c := by
  induction h with
  | nil => cases hc
  | @cons p q _ _ hpq _ ih =>
      obtain ⟨z, y'⟩ := p
      obtain ⟨w, c'⟩ := q
      obtain ⟨rfl, hK⟩ := hpq
      rw [List.lookup_cons] at hc hy
      dsimp only at hc hy
      split at hc
      · rename_i heq
        rw [heq] at hy
        cases hc
        cases hy
        exact hK
      · rename_i heq
        rw [heq] at hy
        exact ih hc hy

/-- A step of the generator declares locals with these flags, and if they are marked so, what it gives
is as described. -/
def Numbers {α : Type} (K : LocalId → Bool) (make : Make α) (flags : List Bool) (Q : α → Prop) :
    Prop :=
  ∀ ctx a ctx', Makes make ctx a ctx' →
    ctx'.locals.size = ctx.locals.size + flags.length ∧ (Marked K ctx.locals.size flags → Q a)

namespace Numbers

variable {α β : Type} {K : LocalId → Bool} {make : Make α} {next : α → Make β}
  {flags flags' : List Bool} {P : α → Prop} {Q : β → Prop}

theorem pure {a : α} (h : P a) : Numbers K (pure a) [] P := by
  intro ctx b ctx' hb
  obtain ⟨rfl, rfl⟩ := hb.pure_inv
  exact ⟨rfl, fun _ => h⟩

theorem bind (h : Numbers K make flags P)
    (h' : ∀ a, Numbers K (next a) flags' fun b => P a → Q b) :
    Numbers K (make >>= next) (flags ++ flags') Q := by
  intro ctx b ctx'' hb
  obtain ⟨a, ctx', ha, hb⟩ := hb.bind_inv
  obtain ⟨hsize, hP⟩ := h ctx a ctx' ha
  obtain ⟨hsize', hQ⟩ := h' a ctx' b ctx'' hb
  rw [List.length_append]
  refine ⟨by omega, fun hmarked => ?_⟩
  -- the second step starts counting where the first one ended
  rw [marked_append, ← hsize] at hmarked
  exact hQ hmarked.2 (hP hmarked.1)

/-- A step that declares nothing in front of another. -/
theorem after (h : Numbers K make [] P) (h' : ∀ a, Numbers K (next a) flags fun b => P a → Q b) :
    Numbers K (make >>= next) flags Q := h.bind h'

theorem of_eq (h : Numbers K make flags P) (heq : flags = flags') : Numbers K make flags' P := by
  rwa [← heq]

theorem of_locals_eq (h : ∀ ctx a ctx', Makes make ctx a ctx' → ctx'.locals = ctx.locals ∧ P a) :
    Numbers K make [] P := by
  intro ctx a ctx' ha
  obtain ⟨hlocals, hP⟩ := h ctx a ctx' ha
  exact ⟨by rw [hlocals]; rfl, fun _ => hP⟩

theorem lift (x : Except Breach α) : Numbers K (liftM x) [] fun _ => True :=
  of_locals_eq fun _ _ _ ha => ⟨congrArg Context.locals ha.lift_inv.2, trivial⟩

end Numbers

/-! ## The generator -/

namespace Make

variable {K : LocalId → Bool}

theorem numbers_declare (name : String) (t : Ty) (c : Bool) :
    Numbers K (declare name t) [c] fun x => K x = c := by
  intro ctx x ctx' hx
  have heq : (Except.ok (ctx.declare name t) : Except Breach _) = .ok (x, ctx') := hx
  cases heq
  exact ⟨by simp, fun hmarked => hmarked 0 c rfl⟩

theorem numbers_freshSite : Numbers K freshSite [] fun _ => True :=
  .of_locals_eq fun ctx s ctx' hs => by
    have heq : (Except.ok ctx.freshSite : Except Breach _) = .ok (s, ctx') := hs
    cases heq
    exact ⟨rfl, trivial⟩

theorem numbers_lookup (scope : Scope) (x : String) (s : Span) :
    Numbers K (lookup scope x s) [] fun y => scope.lookup x = some y :=
  .of_locals_eq fun _ _ _ hx =>
    ⟨congrArg Context.locals (lookup_inv hx).2, (lookup_inv hx).1⟩

theorem numbers_captures (scope : Scope) (cs : List String) (s : Span) :
    Numbers K (cs.mapM fun x => lookup scope x s) [] fun _ => True :=
  .of_locals_eq fun _ _ _ hcs => ⟨congrArg Context.locals (captures_inv hcs).2, trivial⟩

theorem numbers_operandType (op : BinaryOp) (l r : Expr) (s : Span) :
    Numbers K (operandType op l r s) [] fun _ => True := by
  unfold operandType
  split
  · split
    · exact .pure trivial
    · intro ctx a ctx' h
      cases h
  · exact .pure trivial

theorem numbers_params (ps : List Typed.Param) : ∀ scope : Scope,
    Numbers K (params scope ps) (ps.map fun _ => false)
      fun r => ∀ sc, Fits K scope sc → Fits K r.2 (sc.withParams ps) := by
  induction ps with
  | nil => exact fun scope => .pure fun sc h => h
  | cons p ps ih =>
      intro scope
      refine .after (.lift _) fun t => (Numbers.bind (numbers_declare p.name t false) fun x =>
        .bind (ih ((p.name, x) :: scope)) fun r => .pure ?_).of_eq (by simp)
      intro hps hx _ sc hfits
      have hfits' := hps ((p.name, false) :: sc) (.cons ⟨rfl, hx⟩ hfits)
      simpa [Typed.Marks.withParams] using hfits'

/-- Code that is plain, with assignments to variables only, and in which the locals of constants are
marked as such. There is one for each constant among the declarations. -/
structure Keeps (K : LocalId → Bool) (plain : (LocalId → Prop) → Prop) (flags : List Bool)
    (constants : List LocalId) : Prop where
  plain : plain fun x => K x = false
  count : constants.length = flags.count true
  marked : ∀ x ∈ constants, K x = true

/-- Code without declarations. -/
theorem Keeps.none {K : LocalId → Bool} {plain : (LocalId → Prop) → Prop}
    (h : plain fun x => K x = false) : Keeps K plain [] [] :=
  ⟨h, rfl, by simp⟩

/-- The constants of two parts. -/
theorem Keeps.both {K : LocalId → Bool} {plain plain' both : (LocalId → Prop) → Prop}
    {flags flags' : List Bool} {constants constants' : List LocalId}
    (h : Keeps K plain flags constants) (h' : Keeps K plain' flags' constants')
    (hboth : ∀ A, plain A → plain' A → both A) :
    Keeps K both (flags ++ flags') (constants ++ constants') where
  plain := hboth _ h.plain h'.plain
  marked := List.forall_mem_append.2 ⟨h.marked, h'.marked⟩
  count := by rw [List.length_append, List.count_append, h.count, h'.count]

/-- Parameters are no constants. -/
theorem Keeps.withParams {K : LocalId → Bool} {plain : (LocalId → Prop) → Prop}
    {flags : List Bool} {constants : List LocalId} (h : Keeps K plain flags constants)
    (ps : List Typed.Param) : Keeps K plain (ps.map (fun _ => false) ++ flags) constants where
  plain := h.plain
  marked := h.marked
  count := by simp [h.count, List.count_eq_zero.2]

mutual

/-- The code of an expression that spares constants. -/
theorem numbers_expr : ∀ (e : Typed.Expr) (scope : Scope) (sc : Typed.Marks),
    Numbers K (expr scope e) e.flags fun e' => Fits K scope sc → e.Spares sc →
      Keeps K (fun A => e'.Plain A) e.flags (Expr.constants e e')
  | .int _ _, _, _ | .bool _ _, _, _ | .str _ _, _, _ | .function _ _, _, _ | .builtin _ _, _, _ =>
      .after (.lift _) fun _ => .pure fun _ _ _ => .none trivial
  -- reading a local is no assignment, whatever local it is
  | .local x i, scope, _ =>
      .after (.lift _) fun _ => .after (numbers_lookup scope x i.span) fun _ =>
        .pure fun _ _ _ _ => .none trivial
  | .unary op e i, scope, sc =>
      .after (.lift _) fun _ => (Numbers.bind (numbers_expr e scope sc) fun e' =>
        .pure fun he _ hfits hs => he hfits hs).of_eq (List.append_nil _)
  | .binary op l r i, scope, sc =>
      .after (.lift _) fun _ => .bind (numbers_expr l scope sc) fun l' =>
        (Numbers.bind (numbers_expr r scope sc) fun r' =>
          .after (numbers_operandType op l' r' i.span) fun _ =>
            .pure fun _ hr hl _ hfits hs =>
              (hl hfits hs.1).both (hr hfits hs.2) fun _ => And.intro).of_eq (List.append_nil _)
  | .seq es i, scope, sc =>
      .after (.lift _) fun _ => (Numbers.bind (numbers_exprs es scope sc) fun es' =>
        .after numbers_freshSite fun _ =>
          .pure fun _ hes _ hfits hs => hes hfits hs).of_eq (List.append_nil _)
  | .index e p i, scope, sc =>
      .after (.lift _) fun _ => .bind (numbers_expr e scope sc) fun e' =>
        (Numbers.bind (numbers_expr p scope sc) fun p' =>
          .pure fun hp he _ hfits hs =>
            (he hfits hs.1).both (hp hfits hs.2) fun _ => And.intro).of_eq (List.append_nil _)
  | .call f as i, scope, sc => by
      rcases expr_call_cases scope f as i with ⟨j, a, rfl, rfl⟩ | hcall
      · -- `len` of one argument is an expression of its own
        refine .after (.lift _) fun _ => (Numbers.bind (numbers_expr a scope sc) fun a' =>
          .pure fun ha _ hfits hs => ?_).of_eq rfl
        have hrest : Keeps K (fun _ => True) [] [] := .none trivial
        exact (ha hfits hs.2.1).both hrest fun _ ha _ => ha
      · rw [hcall]
        exact .after (.lift _) fun _ => .bind (numbers_expr f scope sc) fun f' =>
          (Numbers.bind (numbers_exprs as scope sc) fun as' =>
            .pure fun has hf _ hfits hs =>
              (hf hfits hs.1).both (has hfits hs.2) fun _ => And.intro).of_eq (List.append_nil _)
  | .closure ps rs b cs i, scope, sc =>
      .after (.lift _) fun _ => .after (numbers_captures scope cs i.span) fun _ =>
        .bind (numbers_params ps scope) fun inner => .after (.lift _) fun _ =>
          (Numbers.bind (numbers_block b inner.2 (sc.withParams ps)) fun b' =>
            .pure fun hb _ hps _ _ hfits hs =>
              (hb (hps sc hfits) hs).withParams ps).of_eq (List.append_nil _)
  | .error i, _, _ => .after (.lift _) fun _ ctx a ctx' h => by cases h

theorem numbers_exprs : ∀ (es : List Typed.Expr) (scope : Scope) (sc : Typed.Marks),
    Numbers K (exprs scope es) (Typed.Expr.flagsList es) fun es' => Fits K scope sc →
      Typed.Expr.SparesList sc es → Keeps K (fun A => Expr.PlainList A es')
        (Typed.Expr.flagsList es) (Expr.constantsList es es')
  | [], _, _ => .pure fun _ _ => .none trivial
  | e :: es, scope, sc =>
      .bind (numbers_expr e scope sc) fun e' =>
        (Numbers.bind (numbers_exprs es scope sc) fun es' =>
          .pure fun hes he hfits hs =>
            (he hfits hs.1).both (hes hfits hs.2) fun _ => And.intro).of_eq (List.append_nil _)

theorem numbers_stmt : ∀ (s : Typed.Stmt) (scope : Scope) (sc : Typed.Marks),
    Numbers K (stmt scope s) s.flags fun r => Fits K scope sc → s.Spares sc →
      Keeps K (fun A => r.1.Plain A) s.flags (Stmt.constants s r.1) ∧ Fits K r.2 (s.marks ++ sc)
  | .declare c x t e s, scope, sc =>
      .bind (numbers_expr e scope sc) fun e' => .after (.lift _) fun t' =>
        (Numbers.bind (numbers_declare x t' c) fun y => .pure fun hy _ he hfits hs => by
          have hconst : Keeps K (fun _ => True) [c] (if c then [y] else []) := by
            cases c with
            | false => exact ⟨trivial, by simp, by simp⟩
            | true => exact ⟨trivial, by simp, by simpa using hy⟩
          exact ⟨(he hfits hs).both hconst fun _ he _ => he, .cons ⟨rfl, hy⟩ hfits⟩).of_eq
            (List.append_nil _)
  | .assign x e s, scope, sc =>
      .after (numbers_lookup scope x s) fun y =>
        (Numbers.bind (numbers_expr e scope sc) fun e' => .pure fun he hy hfits hs =>
          ⟨⟨⟨hfits.lookup hs.1 hy, (he hfits hs.2).plain⟩, (he hfits hs.2).count,
            (he hfits hs.2).marked⟩, hfits⟩).of_eq (List.append_nil _)
  | .if c t e _, scope, sc =>
      .bind (numbers_expr c scope sc) fun c' => .bind (numbers_block t scope sc) fun t' =>
        (Numbers.bind (numbers_block e scope sc) fun e' => .pure fun he ht hc hfits hs =>
          have hblocks := (ht hfits hs.2.1).both (he hfits hs.2.2) fun _ => And.intro
          ⟨(hc hfits hs.1).both hblocks fun _ => And.intro, hfits⟩).of_eq (List.append_nil _)
  | .while c b _, scope, sc =>
      .bind (numbers_expr c scope sc) fun c' =>
        (Numbers.bind (numbers_block b scope sc) fun b' => .pure fun hb hc hfits hs =>
          ⟨(hc hfits hs.1).both (hb hfits hs.2) fun _ => And.intro, hfits⟩).of_eq (List.append_nil _)
  | .return es _, scope, sc =>
      (Numbers.bind (numbers_exprs es scope sc) fun es' => .pure fun hes hfits hs =>
        ⟨hes hfits hs, hfits⟩).of_eq (List.append_nil _)
  | .expr e _, scope, sc =>
      (Numbers.bind (numbers_expr e scope sc) fun e' => .pure fun he hfits hs =>
        ⟨he hfits hs, hfits⟩).of_eq (List.append_nil _)

theorem numbers_block : ∀ (ss : List Typed.Stmt) (scope : Scope) (sc : Typed.Marks),
    Numbers K (block scope ss) (Typed.Stmt.flagsBlock ss) fun ss' => Fits K scope sc →
      Typed.Stmt.SparesBlock sc ss →
      Keeps K (fun A => Stmt.PlainBlock A ss') (Typed.Stmt.flagsBlock ss)
        (Stmt.constantsBlock ss ss')
  | [], _, _ => .pure fun _ _ => .none trivial
  | s :: ss, scope, sc =>
      .bind (numbers_stmt s scope sc) fun r =>
        (Numbers.bind (numbers_block ss r.2 (s.marks ++ sc)) fun ss' =>
          .pure fun hss hs hfits hspares => by
            obtain ⟨hkeeps, hfits'⟩ := hs hfits hspares.1
            have hrest := hss hfits' hspares.2
            exact hkeeps.both hrest fun _ => And.intro).of_eq (List.append_nil _)

end

theorem numbers_function (f : Typed.Function) :
    Numbers K (function f) f.flags fun r => f.SparesConstants →
      Keeps K (fun A => Stmt.PlainBlock A r.2.2) f.flags (Stmt.constantsBlock f.body r.2.2) :=
  .bind (numbers_params f.params []) fun inner => .after (.lift _) fun _ =>
    (Numbers.bind (numbers_block f.body inner.2 (Typed.Marks.withParams f.params [])) fun _ =>
      .pure fun hb _ hps hs => (hb (hps [] .nil) hs).withParams f.params).of_eq (List.append_nil _)

end Make

/-! ## Functions -/

/-- The code of a function, with the locals of its constants: it is plain, and its assignments are to
locals in `A`, to which no constant belongs, but every local that may be added. -/
structure Function.SparesConstants (A : LocalId → Prop) (constants : List LocalId) (g : Function) :
    Prop where
  plain : Stmt.PlainBlock A g.body
  spared : ∀ x ∈ constants, ¬ A x
  fresh : ∀ x : LocalId, g.ctx.locals.size ≤ x.index → A x

/-- The walk through a whole function. The table is what the order of declarations says. -/
theorem Function.keeps_of_ofTyped {f : Typed.Function} {g : Function} (hf : f.SparesConstants)
    (h : Function.ofTyped f = .ok g) :
    g.ctx.locals.size = f.flags.length ∧
      Make.Keeps (fun x => (f.flags[x.index]?).getD false) (fun A => Stmt.PlainBlock A g.body) f.flags
        (Function.constants f g) := by
  unfold Function.ofTyped at h
  cases hrun : (Make.function f).run {} with
  | error b =>
      rw [hrun] at h
      cases h
  | ok r =>
      rw [hrun] at h
      cases h
      obtain ⟨hsize, hkeeps⟩ :=
        Make.numbers_function (K := fun x => (f.flags[x.index]?).getD false) f {} r.1 r.2 hrun
      refine ⟨by simpa using hsize, hkeeps (fun i c hi => ?_) hf⟩
      have hi' : f.flags[({} : Context).locals.size + i]? = some c := by simpa using hi
      simp only [hi', Option.getD_some]

/-- Every constant of a function has its local. -/
theorem Function.length_constants {f : Typed.Function} {g : Function} (hf : f.SparesConstants)
    (h : Function.ofTyped f = .ok g) : (Function.constants f g).length = f.flags.count true :=
  (Function.keeps_of_ofTyped hf h).2.count

/-- **The code of a function that spares constants spares their locals.** -/
theorem Function.sparesConstants_of_ofTyped {f : Typed.Function} {g : Function}
    (hf : f.SparesConstants) (h : Function.ofTyped f = .ok g) :
    ∃ A, g.SparesConstants A (Function.constants f g) := by
  obtain ⟨hsize, hkeeps⟩ := Function.keeps_of_ofTyped hf h
  refine ⟨_, hkeeps.plain, fun x hx => by simp [hkeeps.marked x hx], fun x hx => ?_⟩
  rw [hsize] at hx
  simp [List.getElem?_eq_none hx]

/-- Facts on maps change neither the assignments nor the locals. -/
theorem Function.SparesConstants.withMapFacts {A : LocalId → Prop} {constants : List LocalId}
    {g : Function} (h : g.SparesConstants A constants) :
    g.withMapFacts.SparesConstants A constants := by
  obtain ⟨hplain, hlocals⟩ := Stmt.plainBlock_withMapFactsList h.plain g.ctx
  refine ⟨hplain, h.spared, fun x hx => h.fresh x ?_⟩
  change ((Stmt.withMapFactsList g.body).run g.ctx).2.locals.size ≤ x.index at hx
  rwa [hlocals] at hx

end Rivulet.Ir
