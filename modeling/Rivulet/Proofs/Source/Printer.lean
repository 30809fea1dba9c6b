import Rivulet.Proofs.Grammar.Reading
import Rivulet.Proofs.Source.CaptureWalk
import Rivulet.Proofs.Token.Spelling

set_option autoImplicit false

/-! # Writing programs down

The canonical way to write a program. Operands, arguments, elements, conditions and the bodies of
closures stand in parentheses, so that no operator has to be weighed against another; a closure has
its parameters in parentheses, and a semicolon ends every statement. `Program.text` is the text,
with a blank behind every token.

A tree can be written if it holds no placeholder for text that could not be parsed, its names are
names and its integers are not negative (`Program.isWritable`). Spans and captures are not written:
`Program.bare` takes them out of a tree. -/

namespace Rivulet.Source

/-! ## Trees without spans and captures -/

/-- The span that stands for any other. -/
def nowhere : Span := ⟨0, 0⟩

def Param.bare (p : Param) : Param := { p with span := nowhere }

def OpenParam.bare (p : OpenParam) : OpenParam := { p with span := nowhere }

mutual

/-- The expression without its spans and captures. -/
def Expr.bare : Expr → Expr
  | .literal v _ => .literal v nowhere
  | .name x _ => .name x nowhere
  | .unary op e _ => .unary op e.bare nowhere
  | .binary op l r _ => .binary op l.bare r.bare nowhere
  | .seq es _ => .seq (Expr.bareList es) nowhere
  | .emptySeq t _ => .emptySeq t nowhere
  | .index e i _ => .index e.bare i.bare nowhere
  | .call f as _ => .call f.bare (Expr.bareList as) nowhere
  | .lambda ps b _ _ => .lambda (ps.map OpenParam.bare) b.bare [] nowhere
  | .block ps rs b _ _ => .block (ps.map Param.bare) rs (Stmt.bareBlock b) [] nowhere
  | .error _ => .error nowhere
termination_by structural e => e

/-- Several expressions without their spans and captures. -/
def Expr.bareList : List Expr → List Expr
  | [] => []
  | e :: es => e.bare :: Expr.bareList es
termination_by structural es => es

/-- The statement without its spans and captures. -/
def Stmt.bare : Stmt → Stmt
  | .declare c x t e _ => .declare c x t e.bare nowhere
  | .assign x e _ => .assign x e.bare nowhere
  | .ifThen c b _ => .ifThen c.bare (Stmt.bareBlock b) nowhere
  | .ifElse c b d _ => .ifElse c.bare (Stmt.bareBlock b) (Stmt.bareBlock d) nowhere
  | .while c b _ => .while c.bare (Stmt.bareBlock b) nowhere
  | .return es _ => .return (Expr.bareList es) nowhere
  | .expr e _ => .expr e.bare nowhere
  | .error _ => .error nowhere
termination_by structural s => s

/-- The statements of a block without their spans and captures. -/
def Stmt.bareBlock : List Stmt → List Stmt
  | [] => []
  | s :: ss => s.bare :: Stmt.bareBlock ss
termination_by structural ss => ss

end

def Function.bare (f : Function) : Function :=
  { f with params := f.params.map Param.bare, body := Stmt.bareBlock f.body, span := nowhere }

def Program.bare (p : Program) : Program := ⟨p.functions.map Function.bare⟩

@[simp] theorem Expr.bareList_eq (es : List Expr) : Expr.bareList es = es.map Expr.bare := by
  induction es with
  | nil => rfl
  | cons e es ih => rw [Expr.bareList, ih, List.map_cons]

@[simp] theorem Stmt.bareBlock_eq (ss : List Stmt) : Stmt.bareBlock ss = ss.map Stmt.bare := by
  induction ss with
  | nil => rfl
  | cons s ss ih => rw [Stmt.bareBlock, ih, List.map_cons]

@[simp] theorem Expr.bare_withSpan (e : Expr) (s : Span) : (e.withSpan s).bare = e.bare := by
  cases e <;> rfl

mutual

/-- Captures are all that resolving writes. -/
theorem Expr.bare_resolve (visible : List String) : ∀ e : Expr, (e.resolve visible).bare = e.bare
  | .literal _ _ | .name _ _ | .emptySeq _ _ | .error _ => rfl
  | .unary op e _ => by rw [Expr.resolve, Expr.bare, Expr.bare, Expr.bare_resolve visible e]
  | .binary op l r _ => by
      rw [Expr.resolve, Expr.bare, Expr.bare, Expr.bare_resolve visible l,
        Expr.bare_resolve visible r]
  | .seq es _ => by
      rw [Expr.resolve, Expr.bare, Expr.bare, Expr.bareList_resolveList visible es]
  | .index e i _ => by
      rw [Expr.resolve, Expr.bare, Expr.bare, Expr.bare_resolve visible e,
        Expr.bare_resolve visible i]
  | .call f as _ => by
      rw [Expr.resolve, Expr.bare, Expr.bare, Expr.bare_resolve visible f,
        Expr.bareList_resolveList visible as]
  | .lambda ps b _ _ => by rw [Expr.resolve, Expr.bare, Expr.bare, Expr.bare_resolve _ b]
  | .block ps rs b _ _ => by
      rw [Expr.resolve, Expr.bare, Expr.bare, Stmt.bareBlock_resolveBlock _ b]
termination_by structural e => e

theorem Expr.bareList_resolveList (visible : List String) :
    ∀ es : List Expr, Expr.bareList (Expr.resolveList visible es) = Expr.bareList es
  | [] => rfl
  | e :: es => by
      rw [Expr.resolveList, Expr.bareList, Expr.bareList, Expr.bare_resolve visible e,
        Expr.bareList_resolveList visible es]
termination_by structural es => es

theorem Stmt.bare_resolve (visible : List String) : ∀ s : Stmt, (s.resolve visible).bare = s.bare
  | .declare c x t e _ => by rw [Stmt.resolve, Stmt.bare, Stmt.bare, Expr.bare_resolve visible e]
  | .assign x e _ => by rw [Stmt.resolve, Stmt.bare, Stmt.bare, Expr.bare_resolve visible e]
  | .ifThen c b _ => by
      rw [Stmt.resolve, Stmt.bare, Stmt.bare, Expr.bare_resolve visible c,
        Stmt.bareBlock_resolveBlock visible b]
  | .ifElse c b d _ => by
      rw [Stmt.resolve, Stmt.bare, Stmt.bare, Expr.bare_resolve visible c,
        Stmt.bareBlock_resolveBlock visible b, Stmt.bareBlock_resolveBlock visible d]
  | .while c b _ => by
      rw [Stmt.resolve, Stmt.bare, Stmt.bare, Expr.bare_resolve visible c,
        Stmt.bareBlock_resolveBlock visible b]
  | .return es _ => by
      rw [Stmt.resolve, Stmt.bare, Stmt.bare, Expr.bareList_resolveList visible es]
  | .expr e _ => by rw [Stmt.resolve, Stmt.bare, Stmt.bare, Expr.bare_resolve visible e]
  | .error _ => rfl
termination_by structural s => s

theorem Stmt.bareBlock_resolveBlock (visible : List String) :
    ∀ ss : List Stmt, Stmt.bareBlock (Stmt.resolveBlock visible ss) = Stmt.bareBlock ss
  | [] => rfl
  | s :: ss => by
      rw [Stmt.resolveBlock, Stmt.bareBlock, Stmt.bareBlock, Stmt.bare_resolve visible s,
        Stmt.bareBlock_resolveBlock _ ss]
termination_by structural ss => ss

end

theorem Program.bare_resolve (p : Program) : p.resolve.bare = p.bare := by
  have hfunction : ∀ f : Function, f.resolve.bare = f.bare := fun f => by
    rw [Function.resolve_eq_resolveAmong, Function.resolveAmong, Function.bare, Function.bare,
      Stmt.bareBlock_resolveBlock]
  simp only [Program.resolve, Program.bare, List.map_map, Program.mk.injEq]
  exact List.map_congr_left fun f _ => hfunction f

/-! ## What can be written -/

/-- Whether the literal can be written: there are no negative literals. -/
def Literal.isWritable : Literal → Bool
  | .int n => 0 ≤ n.toInt
  | _ => true

mutual

/-- Whether the expression can be written. -/
def Expr.isWritable : Expr → Bool
  | .literal v _ => v.isWritable
  | .name x _ => Token.isName x
  | .unary _ e _ => e.isWritable
  | .binary _ l r _ => l.isWritable && r.isWritable
  | .seq es _ => Expr.areWritable es
  | .emptySeq _ _ => true
  | .index e i _ => e.isWritable && i.isWritable
  | .call f as _ => f.isWritable && Expr.areWritable as
  | .lambda ps b _ _ => (ps.all fun p => Token.isName p.name) && b.isWritable
  | .block ps _ b _ _ => (ps.all fun p => Token.isName p.name) && Stmt.areWritable b
  | .error _ => false
termination_by structural e => e

/-- Whether several expressions can be written. -/
def Expr.areWritable : List Expr → Bool
  | [] => true
  | e :: es => e.isWritable && Expr.areWritable es
termination_by structural es => es

/-- Whether the statement can be written. -/
def Stmt.isWritable : Stmt → Bool
  | .declare _ x _ e _ => Token.isName x && e.isWritable
  | .assign x e _ => Token.isName x && e.isWritable
  | .ifThen c b _ => c.isWritable && Stmt.areWritable b
  | .ifElse c b d _ => c.isWritable && Stmt.areWritable b && Stmt.areWritable d
  | .while c b _ => c.isWritable && Stmt.areWritable b
  | .return es _ => Expr.areWritable es
  | .expr e _ => e.isWritable
  | .error _ => false
termination_by structural s => s

/-- Whether the statements of a block can be written. -/
def Stmt.areWritable : List Stmt → Bool
  | [] => true
  | s :: ss => s.isWritable && Stmt.areWritable ss
termination_by structural ss => ss

end

/-- Whether the function can be written. -/
def Function.isWritable (f : Function) : Bool :=
  Token.isName f.name && (f.params.all fun p => Token.isName p.name) && Stmt.areWritable f.body

/-- Whether the program can be written. -/
def Program.isWritable (p : Program) : Bool := p.functions.all Function.isWritable

/-! ## Punctuation -/

namespace Printer

def parens (ts : List Token) : List Token := .mark .lparen :: (ts ++ [.mark .rparen])

def brackets (ts : List Token) : List Token := .mark .lbracket :: (ts ++ [.mark .rbracket])

def braces (ts : List Token) : List Token := .mark .lbrace :: (ts ++ [.mark .rbrace])

/-- Parts with a comma between them. -/
def commas (parts : List (List Token)) : List Token := [.mark .comma].intercalate parts

/-- The result list of a function: nothing, one type, or several in parentheses. -/
def arrow : List (List Token) → List Token
  | [] => []
  | [t] => .mark .arrow :: t
  | ts => .mark .arrow :: parens (commas ts)

/-- The mark of a unary operator. -/
def unaryMark : UnaryOp → Mark
  | .not => .not
  | .negate => .minus

/-- The mark of a binary operator. -/
def binaryMark : BinaryOp → Mark
  | .map => .pipeMap
  | .or => .or
  | .and => .and
  | .eq => .doubleEq
  | .notEq => .notEq
  | .lt => .lt
  | .gt => .gt
  | .ltEq => .ltEq
  | .gtEq => .gtEq
  | .bitOr => .pipe
  | .bitXor => .caret
  | .bitAnd => .ampersand
  | .add => .plus
  | .sub => .minus
  | .mul => .star
  | .div => .slash
  | .mod => .percent
  | .pow => .pow

end Printer

open Printer

@[simp] theorem Printer.length_parens (ts : List Token) : (parens ts).length = ts.length + 2 := by
  simp [parens]

@[simp] theorem Printer.length_brackets (ts : List Token) :
    (brackets ts).length = ts.length + 2 := by simp [brackets]

@[simp] theorem Printer.length_braces (ts : List Token) : (braces ts).length = ts.length + 2 := by
  simp [braces]

theorem Printer.parens_append (ts k : List Token) :
    parens ts ++ k = .mark .lparen :: (ts ++ .mark .rparen :: k) := by simp [parens]

theorem Printer.brackets_append (ts k : List Token) :
    brackets ts ++ k = .mark .lbracket :: (ts ++ .mark .rbracket :: k) := by simp [brackets]

theorem Printer.braces_append (ts k : List Token) :
    braces ts ++ k = .mark .lbrace :: (ts ++ .mark .rbrace :: k) := by simp [braces]

/-! ## Types and parameters -/

mutual

/-- The type as it is written. -/
def TypeExpr.tokens : TypeExpr → List Token
  | .named n => [.ident n.spelling]
  | .seq t => brackets t.tokens
  | .func ps rs =>
      .keyword .fn :: (parens (commas (TypeExpr.tokensEach ps)) ++ arrow (TypeExpr.tokensEach rs))
termination_by structural t => t

/-- Several types as they are written. -/
def TypeExpr.tokensEach : List TypeExpr → List (List Token)
  | [] => []
  | t :: ts => t.tokens :: TypeExpr.tokensEach ts
termination_by structural ts => ts

end

@[simp] theorem TypeExpr.tokensEach_eq (ts : List TypeExpr) :
    TypeExpr.tokensEach ts = ts.map TypeExpr.tokens := by
  induction ts with
  | nil => rfl
  | cons t ts ih => rw [TypeExpr.tokensEach, ih, List.map_cons]

/-- The parameter as it is written. -/
def Param.tokens (p : Param) : List Token := .ident p.name :: .mark .colon :: p.ty.tokens

/-- The parameter as it is written, with its type if it has one. -/
def OpenParam.tokens (p : OpenParam) : List Token :=
  .ident p.name ::
    match p.ty with
    | none => []
    | some t => .mark .colon :: t.tokens

/-- The type of a declaration, if it has one, and its sign. -/
def Printer.declaredType : Option TypeExpr → List Token
  | none => [.mark .colonEq]
  | some t => .mark .colon :: (t.tokens ++ [.mark .eq])

/-! ## Expressions and statements -/

/-- The literal as it is written. -/
def Literal.token : Literal → Token
  | .int n => .int n
  | .str s => .str s
  | .bool true => .keyword .true
  | .bool false => .keyword .false

mutual

/-- The expression as it is written. -/
def Expr.tokens : Expr → List Token
  | .literal v _ => [v.token]
  | .name x _ => [.ident x]
  | .unary op e _ => .mark (unaryMark op) :: parens e.tokens
  | .binary op l r _ => parens l.tokens ++ .mark (binaryMark op) :: parens r.tokens
  | .seq es _ => brackets (commas (Expr.tokensInParens es))
  | .emptySeq t _ => .mark .lbracket :: .mark .rbracket :: t.tokens
  | .index e i _ => parens e.tokens ++ brackets (parens i.tokens)
  | .call f as _ => parens f.tokens ++ parens (commas (Expr.tokensInParens as))
  | .lambda ps b _ _ =>
      parens (commas (ps.map OpenParam.tokens)) ++ .mark .arrow :: parens b.tokens
  | .block ps rs b _ _ =>
      parens (commas (ps.map Param.tokens)) ++ arrow (rs.map TypeExpr.tokens) ++
        braces (Stmt.tokensBlock b)
  | .error _ => []
termination_by structural e => e

/-- Several expressions as they are written, each in parentheses. -/
def Expr.tokensInParens : List Expr → List (List Token)
  | [] => []
  | e :: es => parens e.tokens :: Expr.tokensInParens es
termination_by structural es => es

/-- Several expressions as they are written. -/
def Expr.tokensEach : List Expr → List (List Token)
  | [] => []
  | e :: es => e.tokens :: Expr.tokensEach es
termination_by structural es => es

/-- The statement as it is written. -/
def Stmt.tokens : Stmt → List Token
  | .declare c x t e _ =>
      .keyword (if c then .const else .var) :: .ident x ::
        (Printer.declaredType t ++ (e.tokens ++ [.mark .semicolon]))
  | .assign x e _ => .ident x :: .mark .eq :: (e.tokens ++ [.mark .semicolon])
  | .ifThen c b _ =>
      .keyword .if :: (parens c.tokens ++ (braces (Stmt.tokensBlock b) ++ [.mark .semicolon]))
  | .ifElse c b d _ =>
      .keyword .if :: (parens c.tokens ++ (braces (Stmt.tokensBlock b) ++
        .keyword .else :: (braces (Stmt.tokensBlock d) ++ [.mark .semicolon])))
  | .while c b _ =>
      .keyword .while :: (parens c.tokens ++ (braces (Stmt.tokensBlock b) ++ [.mark .semicolon]))
  | .return es _ => .keyword .return :: (commas (Expr.tokensEach es) ++ [.mark .semicolon])
  | .expr e _ => e.tokens ++ [.mark .semicolon]
  | .error _ => []
termination_by structural s => s

/-- The statements of a block as they are written. -/
def Stmt.tokensBlock : List Stmt → List Token
  | [] => []
  | s :: ss => s.tokens ++ Stmt.tokensBlock ss
termination_by structural ss => ss

end

@[simp] theorem Expr.tokensInParens_eq (es : List Expr) :
    Expr.tokensInParens es = es.map fun e => parens e.tokens := by
  induction es with
  | nil => rfl
  | cons e es ih => rw [Expr.tokensInParens, ih, List.map_cons]

@[simp] theorem Expr.tokensEach_eq (es : List Expr) :
    Expr.tokensEach es = es.map Expr.tokens := by
  induction es with
  | nil => rfl
  | cons e es ih => rw [Expr.tokensEach, ih, List.map_cons]

@[simp] theorem Stmt.tokensBlock_eq (ss : List Stmt) :
    Stmt.tokensBlock ss = ss.flatMap Stmt.tokens := by
  induction ss with
  | nil => rfl
  | cons s ss ih => rw [Stmt.tokensBlock, ih, List.flatMap_cons]

/-- The function as it is written. -/
def Function.tokens (f : Function) : List Token :=
  .keyword .function :: .ident f.name ::
    (parens (commas (f.params.map Param.tokens)) ++ arrow (f.results.map TypeExpr.tokens) ++
      braces (Stmt.tokensBlock f.body))

/-- The program as it is written. -/
def Program.tokens (p : Program) : List Token := p.functions.flatMap Function.tokens

/-- The text of a program. -/
def Program.text (p : Program) : String := String.ofList (Token.spell p.tokens)

example : Program.text ⟨[⟨"f", [⟨"x", .named .int, nowhere⟩], [.named .int],
      [.return [.binary .add (.name "x" nowhere) (.literal (.int 1) nowhere) nowhere] nowhere],
      nowhere⟩]⟩
    = "function f ( x : int ) -> int \x7b return ( x ) + ( 1 ) ; \x7d " := by decide

/-! ## What is written can be spelled -/

/-- All tokens of a list can be written. -/
abbrev Spellable (ts : List Token) : Prop := ∀ t ∈ ts, t.isSpellable = true

theorem spellable_cons {t : Token} {ts : List Token} (ht : t.isSpellable = true)
    (hts : Spellable ts) : Spellable (t :: ts) := List.forall_mem_cons.2 ⟨ht, hts⟩

theorem spellable_append {ts us : List Token} (hts : Spellable ts) (hus : Spellable us) :
    Spellable (ts ++ us) := List.forall_mem_append.2 ⟨hts, hus⟩

theorem spellable_parens {ts : List Token} (hts : Spellable ts) : Spellable (parens ts) :=
  spellable_cons rfl (spellable_append hts (spellable_cons rfl nofun))

theorem spellable_brackets {ts : List Token} (hts : Spellable ts) : Spellable (brackets ts) :=
  spellable_cons rfl (spellable_append hts (spellable_cons rfl nofun))

theorem spellable_braces {ts : List Token} (hts : Spellable ts) : Spellable (braces ts) :=
  spellable_cons rfl (spellable_append hts (spellable_cons rfl nofun))

theorem spellable_commas {parts : List (List Token)} (h : ∀ ts ∈ parts, Spellable ts) :
    Spellable (commas parts) := by
  cases parts with
  | nil => nofun
  | cons ts parts =>
      rw [commas, Grammar.Gram.intercalate_cons]
      refine spellable_append (h ts (by simp)) ?_
      intro t ht
      obtain ⟨us, hus, ht⟩ := List.mem_flatMap.1 ht
      exact spellable_cons rfl (h us (List.mem_cons_of_mem _ hus)) t ht

theorem spellable_arrow {parts : List (List Token)} (h : ∀ ts ∈ parts, Spellable ts) :
    Spellable (arrow parts) := by
  match parts with
  | [] => nofun
  | [ts] => exact spellable_cons rfl (h ts (by simp))
  | ts :: us :: parts => exact spellable_cons rfl (spellable_parens (spellable_commas h))

mutual

theorem TypeExpr.spellable : ∀ t : TypeExpr, Spellable t.tokens
  | .named t => by
      rw [TypeExpr.tokens]
      exact spellable_cons (by cases t <;> decide) nofun
  | .seq t => by
      rw [TypeExpr.tokens]
      exact spellable_brackets t.spellable
  | .func ps rs => by
      rw [TypeExpr.tokens]
      exact spellable_cons rfl (spellable_append
        (spellable_parens (spellable_commas (TypeExpr.spellable_each ps)))
        (spellable_arrow (TypeExpr.spellable_each rs)))
termination_by structural t => t

theorem TypeExpr.spellable_each :
    ∀ ts : List TypeExpr, ∀ us ∈ TypeExpr.tokensEach ts, Spellable us
  | [] => nofun
  | t :: ts => List.forall_mem_cons.2 ⟨t.spellable, TypeExpr.spellable_each ts⟩
termination_by structural ts => ts

end

theorem TypeExpr.spellable_arrow (ts : List TypeExpr) :
    Spellable (arrow (ts.map TypeExpr.tokens)) :=
  Source.spellable_arrow (by simpa using TypeExpr.spellable_each ts)

theorem Param.spellable_list {ps : List Param}
    (hps : (ps.all fun p => Token.isName p.name) = true) :
    Spellable (parens (commas (ps.map Param.tokens))) := by
  refine spellable_parens (spellable_commas ?_)
  simp only [List.forall_mem_map, List.all_eq_true] at hps ⊢
  exact fun p hp => spellable_cons (hps p hp) (spellable_cons rfl p.ty.spellable)

theorem OpenParam.spellable_list {ps : List OpenParam}
    (hps : (ps.all fun p => Token.isName p.name) = true) :
    Spellable (parens (commas (ps.map OpenParam.tokens))) := by
  refine spellable_parens (spellable_commas ?_)
  simp only [List.forall_mem_map, List.all_eq_true] at hps ⊢
  intro p hp
  refine spellable_cons (hps p hp) ?_
  split
  · nofun
  · exact spellable_cons rfl (TypeExpr.spellable _)

mutual

theorem Expr.spellable : ∀ e : Expr, e.isWritable = true → Spellable e.tokens
  | .literal v _, h => by
      rw [Expr.tokens]
      refine spellable_cons ?_ nofun
      rcases v with _ | _ | (_ | _)
      · exact h
      all_goals rfl
  | .name x _, h => by
      rw [Expr.tokens]
      exact spellable_cons h nofun
  | .unary op e _, h => by
      rw [Expr.tokens]
      exact spellable_cons rfl (spellable_parens (e.spellable h))
  | .binary op l r _, h => by
      rw [Expr.isWritable, Bool.and_eq_true] at h
      rw [Expr.tokens]
      exact spellable_append (spellable_parens (l.spellable h.1))
        (spellable_cons rfl (spellable_parens (r.spellable h.2)))
  | .seq es _, h => by
      rw [Expr.tokens]
      exact spellable_brackets (spellable_commas (Expr.spellable_inParens es h))
  | .emptySeq t _, _ => by
      rw [Expr.tokens]
      exact spellable_cons rfl (spellable_cons rfl t.spellable)
  | .index e i _, h => by
      rw [Expr.isWritable, Bool.and_eq_true] at h
      rw [Expr.tokens]
      exact spellable_append (spellable_parens (e.spellable h.1))
        (spellable_brackets (spellable_parens (i.spellable h.2)))
  | .call f as _, h => by
      rw [Expr.isWritable, Bool.and_eq_true] at h
      rw [Expr.tokens]
      exact spellable_append (spellable_parens (f.spellable h.1))
        (spellable_parens (spellable_commas (Expr.spellable_inParens as h.2)))
  | .lambda ps b _ _, h => by
      rw [Expr.isWritable, Bool.and_eq_true] at h
      rw [Expr.tokens]
      exact spellable_append (OpenParam.spellable_list h.1)
        (spellable_cons rfl (spellable_parens (b.spellable h.2)))
  | .block ps rs b _ _, h => by
      rw [Expr.isWritable, Bool.and_eq_true] at h
      rw [Expr.tokens]
      exact spellable_append (spellable_append (Param.spellable_list h.1)
        (TypeExpr.spellable_arrow rs)) (spellable_braces (Stmt.spellable_block b h.2))
  | .error _, _ => nofun
termination_by structural e => e

theorem Expr.spellable_inParens :
    ∀ es : List Expr, Expr.areWritable es = true → ∀ ts ∈ Expr.tokensInParens es, Spellable ts
  | [], _ => nofun
  | e :: es, h => by
      rw [Expr.areWritable, Bool.and_eq_true] at h
      exact List.forall_mem_cons.2
        ⟨spellable_parens (e.spellable h.1), Expr.spellable_inParens es h.2⟩
termination_by structural es => es

theorem Expr.spellable_each :
    ∀ es : List Expr, Expr.areWritable es = true → ∀ ts ∈ Expr.tokensEach es, Spellable ts
  | [], _ => nofun
  | e :: es, h => by
      rw [Expr.areWritable, Bool.and_eq_true] at h
      exact List.forall_mem_cons.2 ⟨e.spellable h.1, Expr.spellable_each es h.2⟩
termination_by structural es => es

theorem Stmt.spellable : ∀ s : Stmt, s.isWritable = true → Spellable s.tokens
  | .declare c x t e _, h => by
      rw [Stmt.isWritable, Bool.and_eq_true] at h
      rw [Stmt.tokens]
      refine spellable_cons rfl (spellable_cons h.1 (spellable_append ?_
        (spellable_append (e.spellable h.2) (spellable_cons rfl nofun))))
      cases t with
      | none => exact spellable_cons rfl nofun
      | some t =>
          exact spellable_cons rfl (spellable_append t.spellable (spellable_cons rfl nofun))
  | .assign x e _, h => by
      rw [Stmt.isWritable, Bool.and_eq_true] at h
      rw [Stmt.tokens]
      exact spellable_cons h.1 (spellable_cons rfl
        (spellable_append (e.spellable h.2) (spellable_cons rfl nofun)))
  | .ifThen c b _, h => by
      rw [Stmt.isWritable, Bool.and_eq_true] at h
      rw [Stmt.tokens]
      exact spellable_cons rfl (spellable_append (spellable_parens (c.spellable h.1))
        (spellable_append (spellable_braces (Stmt.spellable_block b h.2))
          (spellable_cons rfl nofun)))
  | .ifElse c b d _, h => by
      rw [Stmt.isWritable, Bool.and_eq_true, Bool.and_eq_true] at h
      rw [Stmt.tokens]
      exact spellable_cons rfl (spellable_append (spellable_parens (c.spellable h.1.1))
        (spellable_append (spellable_braces (Stmt.spellable_block b h.1.2)) (spellable_cons rfl
          (spellable_append (spellable_braces (Stmt.spellable_block d h.2))
            (spellable_cons rfl nofun)))))
  | .while c b _, h => by
      rw [Stmt.isWritable, Bool.and_eq_true] at h
      rw [Stmt.tokens]
      exact spellable_cons rfl (spellable_append (spellable_parens (c.spellable h.1))
        (spellable_append (spellable_braces (Stmt.spellable_block b h.2))
          (spellable_cons rfl nofun)))
  | .return es _, h => by
      rw [Stmt.tokens]
      exact spellable_cons rfl (spellable_append (spellable_commas (Expr.spellable_each es h))
        (spellable_cons rfl nofun))
  | .expr e _, h => by
      rw [Stmt.tokens]
      exact spellable_append (e.spellable h) (spellable_cons rfl nofun)
  | .error _, _ => nofun
termination_by structural s => s

theorem Stmt.spellable_block :
    ∀ ss : List Stmt, Stmt.areWritable ss = true → Spellable (Stmt.tokensBlock ss)
  | [], _ => nofun
  | s :: ss, h => by
      rw [Stmt.areWritable, Bool.and_eq_true] at h
      rw [Stmt.tokensBlock]
      exact spellable_append (s.spellable h.1) (Stmt.spellable_block ss h.2)
termination_by structural ss => ss

end

/-- The tokens of a program that can be written can be spelled. -/
theorem Program.spellable {p : Program} (hp : p.isWritable = true) : Spellable p.tokens := by
  simp only [Program.isWritable, List.all_eq_true] at hp
  intro t ht
  obtain ⟨f, hf, ht⟩ := List.mem_flatMap.1 ht
  have hwritable := hp f hf
  simp only [Function.isWritable, Bool.and_eq_true] at hwritable
  obtain ⟨⟨hname, hparams⟩, hbody⟩ := hwritable
  have hfunction : Spellable f.tokens :=
    spellable_cons rfl (spellable_cons hname (spellable_append
      (spellable_append (Param.spellable_list hparams) (TypeExpr.spellable_arrow f.results))
      (spellable_braces (Stmt.spellable_block f.body hbody))))
  exact hfunction t ht

end Rivulet.Source
