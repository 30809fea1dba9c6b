import Rivulet.Proofs.Grammar.Derivations
import Rivulet.Proofs.Source.CaptureWalk
import Rivulet.Proofs.Source.Grouping

set_option autoImplicit false

/-! # Phrases

Which tokens are a program, and which one. The relations of this file are the grammar of the
language as it is described to its users: one relation for each kind of phrase and one constructor
for each way to write it, with the tree that stands for it. There is no order among the
constructors, no lookahead and no recovery; a tree has the spans that its tokens have.

    program    a function definition, any number of times
    function   function x(p: T, …) [-> T | -> (T, …)] block
    block      { statement … }
    statement  var|const x [: T] := e    var|const x: T = e    x := e    x = e    return [e, …]
               if e block [else block]   while e block   e     each with an optional semicolon
    e          operands with binary operators between them, flat
    operand    - and ! in front of an atom with calls and subscripts behind it
    atom       a literal, a name, [e, …], []T, (e), or a closure
    closure    x [: T] -> e   (x [: T], …) -> e   (x: T, …) [-> T | -> (T, …)] block
    T          int, string, bool, [T], fn(T, …) [-> T | -> (T, …)]

A list in brackets or parentheses may end with a comma. No tree of a phrase holds a placeholder
(`IsProgram.intact`). -/

namespace Rivulet.Source

open Grammar Wording

/-! ## Trees without placeholders -/

mutual

/-- No part of the expression stands for text that could not be parsed. -/
def Expr.Intact : Expr → Prop
  | .literal _ _ | .name _ _ | .emptySeq _ _ => True
  | .unary _ e _ => e.Intact
  | .binary _ l r _ => l.Intact ∧ r.Intact
  | .seq es _ => Expr.IntactList es
  | .index e i _ => e.Intact ∧ i.Intact
  | .call f as _ => f.Intact ∧ Expr.IntactList as
  | .lambda _ b _ _ => b.Intact
  | .block _ _ b _ _ => Stmt.IntactBlock b
  | .error _ => False
termination_by structural e => e

/-- All of the expressions are intact. -/
def Expr.IntactList : List Expr → Prop
  | [] => True
  | e :: es => e.Intact ∧ Expr.IntactList es
termination_by structural es => es

/-- No part of the statement stands for text that could not be parsed, nor does the statement. -/
def Stmt.Intact : Stmt → Prop
  | .declare _ _ _ e _ | .assign _ e _ | .expr e _ => e.Intact
  | .ifThen c b _ | .while c b _ => c.Intact ∧ Stmt.IntactBlock b
  | .ifElse c b d _ => c.Intact ∧ Stmt.IntactBlock b ∧ Stmt.IntactBlock d
  | .return es _ => Expr.IntactList es
  | .error _ => False
termination_by structural s => s

/-- All of the statements are intact. -/
def Stmt.IntactBlock : List Stmt → Prop
  | [] => True
  | s :: ss => s.Intact ∧ Stmt.IntactBlock ss
termination_by structural ss => ss

end

/-- No part of the program stands for text that could not be parsed. -/
def Program.Intact (p : Program) : Prop := ∀ f ∈ p.functions, Stmt.IntactBlock f.body

mutual

theorem Expr.intact_resolve (visible : List String) :
    ∀ e : Expr, (e.resolve visible).Intact ↔ e.Intact
  | .literal _ _ | .name _ _ | .emptySeq _ _ | .error _ => by simp [Expr.resolve]
  | .unary _ e _ => by simp [Expr.resolve, Expr.Intact, Expr.intact_resolve visible e]
  | .binary _ l r _ => by
      simp [Expr.resolve, Expr.Intact, Expr.intact_resolve visible l, Expr.intact_resolve visible r]
  | .seq es _ => by simp [Expr.resolve, Expr.Intact, Expr.intactList_resolveList visible es]
  | .index e i _ => by
      simp [Expr.resolve, Expr.Intact, Expr.intact_resolve visible e, Expr.intact_resolve visible i]
  | .call f as _ => by
      simp [Expr.resolve, Expr.Intact, Expr.intact_resolve visible f,
        Expr.intactList_resolveList visible as]
  | .lambda ps b _ _ => by simp [Expr.resolve, Expr.Intact, Expr.intact_resolve _ b]
  | .block ps _ b _ _ => by simp [Expr.resolve, Expr.Intact, Stmt.intactBlock_resolveBlock _ b]
termination_by structural e => e

theorem Expr.intactList_resolveList (visible : List String) :
    ∀ es : List Expr, Expr.IntactList (Expr.resolveList visible es) ↔ Expr.IntactList es
  | [] => by simp [Expr.resolveList]
  | e :: es => by
      simp [Expr.resolveList, Expr.IntactList, Expr.intact_resolve visible e,
        Expr.intactList_resolveList visible es]
termination_by structural es => es

theorem Stmt.intact_resolve (visible : List String) :
    ∀ s : Stmt, (s.resolve visible).Intact ↔ s.Intact
  | .declare _ _ _ e _ | .assign _ e _ | .expr e _ => by
      simp [Stmt.resolve, Stmt.Intact, Expr.intact_resolve visible e]
  | .ifThen c b _ | .while c b _ => by
      simp [Stmt.resolve, Stmt.Intact, Expr.intact_resolve visible c,
        Stmt.intactBlock_resolveBlock visible b]
  | .ifElse c b d _ => by
      simp [Stmt.resolve, Stmt.Intact, Expr.intact_resolve visible c,
        Stmt.intactBlock_resolveBlock visible b, Stmt.intactBlock_resolveBlock visible d]
  | .return es _ => by
      simp [Stmt.resolve, Stmt.Intact, Expr.intactList_resolveList visible es]
  | .error _ => by simp [Stmt.resolve]
termination_by structural s => s

theorem Stmt.intactBlock_resolveBlock (visible : List String) :
    ∀ ss : List Stmt, Stmt.IntactBlock (Stmt.resolveBlock visible ss) ↔ Stmt.IntactBlock ss
  | [] => by simp [Stmt.resolveBlock]
  | s :: ss => by
      simp [Stmt.resolveBlock, Stmt.IntactBlock, Stmt.intact_resolve visible s,
        Stmt.intactBlock_resolveBlock _ ss]
termination_by structural ss => ss

end

/-- Resolving captures neither adds nor removes a placeholder. -/
theorem Program.intact_resolve (p : Program) : p.resolve.Intact ↔ p.Intact := by
  simp [Program.Intact, Program.resolve_eq_resolveAmong, Program.resolveAmong,
    Function.resolveAmong, Stmt.intactBlock_resolveBlock]

theorem Expr.Intact.withSpan {e : Expr} (h : e.Intact) (s : Span) : (e.withSpan s).Intact := by
  cases e <;> exact h

theorem climb_intact {first : Expr} {rest : List (BinaryOp × Expr)} (hfirst : first.Intact)
    (hrest : ∀ p ∈ rest, p.2.Intact) : (climb first rest).Intact :=
  climb_induction (fun _ _ _ _ hl hr => ⟨hl, hr⟩) hfirst hrest

/-! ## Phrases -/

namespace Phrase

/-- A mark at a place. -/
abbrev mark (m : Mark) (s : Span) : Lexeme := ⟨.mark m, s⟩

/-- A keyword at a place. -/
abbrev word (k : Keyword) (s : Span) : Lexeme := ⟨.keyword k, s⟩

/-- A name at a place. -/
abbrev ident (x : String) (s : Span) : Lexeme := ⟨.ident x, s⟩

/-- A comma between two items. -/
def IsComma (ss : List Lexeme) : Prop := ∃ s, ss = [mark .comma s]

/-! ### Types and parameters -/

/-- The results of a function whose types are written as `T` says: none, or one or several
behind an arrow. -/
inductive IsResults (T : Wording TypeExpr) : Wording (List TypeExpr) where
  | none : IsResults T [] []
  | one {ls : List Lexeme} {t : TypeExpr} {s : Span} (result : T ls t) :
      IsResults T (mark .arrow s :: ls) [t]
  | several {ls : List Lexeme} {ts : List TypeExpr} {s o c : Span}
      (results : Separated T IsComma true ls ts) :
      IsResults T (mark .arrow s :: mark .lparen o :: (ls ++ [mark .rparen c])) ts

/-- A type. -/
inductive IsType : Wording TypeExpr where
  | named {x : String} {n : TypeName} {s : Span} (spelled : TypeName.ofSpelling? x = some n) :
      IsType [ident x s] (.named n)
  | seq {ls : List Lexeme} {t : TypeExpr} {o c : Span} (element : IsType ls t) :
      IsType (mark .lbracket o :: (ls ++ [mark .rbracket c])) (.seq t)
  | func {ls ms : List Lexeme} {ps rs : List TypeExpr} {s o c : Span}
      (params : Separated IsType IsComma true ls ps) (results : IsResults IsType ms rs) :
      IsType (word .fn s :: mark .lparen o :: (ls ++ mark .rparen c :: ms)) (.func ps rs)

/-- A parameter with its type. -/
inductive IsParam : Wording Param where
  | typed {w ls : List Lexeme} {x : String} {t : TypeExpr} {s c : Span} (type : IsType ls t)
      (tokens : w = ident x s :: mark .colon c :: ls) : IsParam w ⟨x, t, extent w⟩

/-- A parameter whose type may be left out. -/
inductive IsOpenParam : Wording OpenParam where
  | untyped {x : String} {s : Span} : IsOpenParam [ident x s] ⟨x, none, s⟩
  | typed {w ls : List Lexeme} {x : String} {t : TypeExpr} {s c : Span} (type : IsType ls t)
      (tokens : w = ident x s :: mark .colon c :: ls) : IsOpenParam w ⟨x, some t, extent w⟩

/-- What stands in front of the arrow of a closure: one parameter, or several in parentheses. -/
inductive IsClosureHead : Wording (List OpenParam) where
  | one {ls : List Lexeme} {p : OpenParam} (param : IsOpenParam ls p) : IsClosureHead ls [p]
  | several {ls : List Lexeme} {ps : List OpenParam} {o c : Span}
      (params : Separated IsOpenParam IsComma true ls ps) :
      IsClosureHead (mark .lparen o :: (ls ++ [mark .rparen c])) ps

/-! ### Expressions and statements -/

/-- The keyword of a declaration. -/
def declarator (isConst : Bool) : Keyword := if isConst then .const else .var

mutual

/-- An expression without operators, calls and subscripts. An expression in parentheses stands for
the expression inside, at the span of the parentheses. -/
inductive IsAtom : Wording Expr where
  | int {n : Int64} {s : Span} : IsAtom [⟨.int n, s⟩] (.literal (.int n) s)
  | str {x : String} {s : Span} : IsAtom [⟨.str x, s⟩] (.literal (.str x) s)
  | true {s : Span} : IsAtom [word .true s] (.literal (.bool .true) s)
  | false {s : Span} : IsAtom [word .false s] (.literal (.bool .false) s)
  | name {x : String} {s : Span} : IsAtom [ident x s] (.name x s)
  | seq {w ls : List Lexeme} {es : List Expr} {o c : Span}
      (elements : Separated IsExpr IsComma .true ls es)
      (tokens : w = mark .lbracket o :: (ls ++ [mark .rbracket c])) :
      IsAtom w (.seq es (extent w))
  | emptySeq {w ls : List Lexeme} {t : TypeExpr} {o c : Span} (element : IsType ls t)
      (tokens : w = mark .lbracket o :: mark .rbracket c :: ls) :
      IsAtom w (.emptySeq t (extent w))
  | parens {w ls : List Lexeme} {e : Expr} {o c : Span} (inner : IsExpr ls e)
      (tokens : w = mark .lparen o :: (ls ++ [mark .rparen c])) :
      IsAtom w (e.withSpan (extent w))
  | lambda {w ls ms : List Lexeme} {ps : List OpenParam} {e : Expr} {s : Span}
      (head : IsClosureHead ls ps) (body : IsExpr ms e) (tokens : w = ls ++ mark .arrow s :: ms) :
      IsAtom w (.lambda ps e [] (extent w))
  | block {w ls ms ns : List Lexeme} {ps : List Param} {rs : List TypeExpr} {b : List Stmt}
      {o c : Span} (params : Separated IsParam IsComma .true ls ps)
      (results : IsResults IsType ms rs) (body : IsBlock ns b)
      (tokens : w = mark .lparen o :: (ls ++ mark .rparen c :: (ms ++ ns))) :
      IsAtom w (.block ps rs b [] (extent w))

/-- An atom with calls and subscripts behind it. -/
inductive IsApplied : Wording Expr where
  | atom {ls : List Lexeme} {e : Expr} (atom : IsAtom ls e) : IsApplied ls e
  | call {ls ms : List Lexeme} {f : Expr} {as : List Expr} {o c : Span} (callee : IsApplied ls f)
      (args : Separated IsExpr IsComma .true ms as) :
      IsApplied (ls ++ mark .lparen o :: (ms ++ [mark .rparen c]))
        (.call f as (f.span.through c))
  | index {ls ms : List Lexeme} {e i : Expr} {o c : Span} (sequence : IsApplied ls e)
      (position : IsExpr ms i) :
      IsApplied (ls ++ mark .lbracket o :: (ms ++ [mark .rbracket c]))
        (.index e i (e.span.through c))

/-- An applied atom with unary operators in front of it. -/
inductive IsOperand : Wording Expr where
  | applied {ls : List Lexeme} {e : Expr} (applied : IsApplied ls e) : IsOperand ls e
  | unary {ls : List Lexeme} {op : UnaryOp} {m : Mark} {e : Expr} {s : Span}
      (spelled : m.spelling = op.symbol) (operand : IsOperand ls e) :
      IsOperand (mark m s :: ls) (.unary op e (s.through e.span))

/-- The operators behind the first operand of a chain, each with the operand behind it. -/
inductive IsChain : Wording (List (BinaryOp × Expr)) where
  | nil : IsChain [] []
  | cons {ls ms : List Lexeme} {op : BinaryOp} {m : Mark} {e : Expr} {rest : List (BinaryOp × Expr)}
      {s : Span} (spelled : m.spelling = op.symbol) (operand : IsOperand ls e)
      (tail : IsChain ms rest) : IsChain (mark m s :: (ls ++ ms)) ((op, e) :: rest)

/-- An expression: a flat chain, grouped by `climb`. -/
inductive IsExpr : Wording Expr where
  | chain {ls ms : List Lexeme} {e : Expr} {rest : List (BinaryOp × Expr)} (first : IsOperand ls e)
      (chain : IsChain ms rest) : IsExpr (ls ++ ms) (climb e rest)

/-- A statement without its semicolon. -/
inductive IsSentence : Wording Stmt where
  | declareTyped {w ls ms : List Lexeme} {isConst : Bool} {x : String} {t : TypeExpr} {e : Expr}
      {m : Mark} {s i c q : Span} (type : IsType ls t) (equals : m = .eq ∨ m = .colonEq)
      (value : IsExpr ms e)
      (tokens : w = word (declarator isConst) s :: ident x i :: mark .colon c
        :: (ls ++ mark m q :: ms)) :
      IsSentence w (.declare isConst x (some t) e (extent w))
  | declare {w ls : List Lexeme} {isConst : Bool} {x : String} {e : Expr} {s i q : Span}
      (value : IsExpr ls e)
      (tokens : w = word (declarator isConst) s :: ident x i :: mark .colonEq q :: ls) :
      IsSentence w (.declare isConst x none e (extent w))
  | declareShort {w ls : List Lexeme} {x : String} {e : Expr} {i q : Span} (value : IsExpr ls e)
      (tokens : w = ident x i :: mark .colonEq q :: ls) :
      IsSentence w (.declare .false x none e (extent w))
  | assign {w ls : List Lexeme} {x : String} {e : Expr} {i q : Span} (value : IsExpr ls e)
      (tokens : w = ident x i :: mark .eq q :: ls) : IsSentence w (.assign x e (extent w))
  | ifThen {w ls ms : List Lexeme} {e : Expr} {b : List Stmt} {s : Span} (condition : IsExpr ls e)
      (thenBlock : IsBlock ms b) (tokens : w = word .if s :: (ls ++ ms)) :
      IsSentence w (.ifThen e b (extent w))
  | ifElse {w ls ms ns : List Lexeme} {e : Expr} {b d : List Stmt} {s z : Span}
      (condition : IsExpr ls e) (thenBlock : IsBlock ms b) (elseBlock : IsBlock ns d)
      (tokens : w = word .if s :: (ls ++ (ms ++ word .else z :: ns))) :
      IsSentence w (.ifElse e b d (extent w))
  | while {w ls ms : List Lexeme} {e : Expr} {b : List Stmt} {s : Span} (condition : IsExpr ls e)
      (body : IsBlock ms b) (tokens : w = word .while s :: (ls ++ ms)) :
      IsSentence w (.while e b (extent w))
  | return {w ls : List Lexeme} {es : List Expr} {s : Span}
      (values : Separated IsExpr IsComma .false ls es) (tokens : w = word .return s :: ls) :
      IsSentence w (.return es (extent w))
  | expr {w : List Lexeme} {e : Expr} (value : IsExpr w e) : IsSentence w (.expr e (extent w))

/-- A statement, with an optional semicolon that does not belong to its span. -/
inductive IsStmt : Wording Stmt where
  | plain {ls : List Lexeme} {k : Stmt} (sentence : IsSentence ls k) : IsStmt ls k
  | ended {ls : List Lexeme} {k : Stmt} {s : Span} (sentence : IsSentence ls k) :
      IsStmt (ls ++ [mark .semicolon s]) k

/-- Statements in braces. -/
inductive IsBlock : Wording (List Stmt) where
  | braces {ls : List Lexeme} {b : List Stmt} {o c : Span} (stmts : Many IsStmt ls b) :
      IsBlock (mark .lbrace o :: (ls ++ [mark .rbrace c])) b

end

/-! ### Programs -/

/-- A function definition. -/
inductive IsFunction : Wording Function where
  | define {w ls ms ns : List Lexeme} {x : String} {ps : List Param} {rs : List TypeExpr}
      {b : List Stmt} {s i o c : Span} (params : Separated IsParam IsComma true ls ps)
      (results : IsResults IsType ms rs) (body : IsBlock ns b)
      (tokens : w = word .function s :: ident x i :: mark .lparen o
        :: (ls ++ mark .rparen c :: (ms ++ ns))) :
      IsFunction w ⟨x, ps, rs, b, extent w⟩

/-- A program. -/
def IsProgram (ls : List Lexeme) (p : Program) : Prop := Many IsFunction ls p.functions

/-! ## Phrases are not empty -/

theorem IsAtom.ne_nil {ls : List Lexeme} {e : Expr} (h : IsAtom ls e) : ls ≠ [] := by
  cases h with
  | int | str | true | false | name => simp
  | seq _ htokens | emptySeq _ htokens | parens _ htokens | lambda _ _ htokens
  | block _ _ _ htokens => simp [htokens]

theorem IsApplied.ne_nil {ls : List Lexeme} {e : Expr} (h : IsApplied ls e) : ls ≠ [] := by
  cases h with
  | atom hatom => exact hatom.ne_nil
  | call | index => simp

theorem IsOperand.ne_nil {ls : List Lexeme} {e : Expr} (h : IsOperand ls e) : ls ≠ [] := by
  cases h with
  | applied happlied => exact happlied.ne_nil
  | unary => simp

theorem IsExpr.ne_nil {ls : List Lexeme} {e : Expr} (h : IsExpr ls e) : ls ≠ [] := by
  obtain ⟨hfirst, -⟩ := h
  exact List.append_ne_nil_of_left_ne_nil hfirst.ne_nil _

theorem IsSentence.ne_nil {ls : List Lexeme} {k : Stmt} (h : IsSentence ls k) : ls ≠ [] := by
  cases h with
  | declareTyped _ _ _ htokens | declare _ htokens | declareShort _ htokens | assign _ htokens
  | ifThen _ _ htokens | ifElse _ _ _ htokens | «while» _ _ htokens | «return» _ htokens =>
      simp [htokens]
  | expr hvalue => exact hvalue.ne_nil

/-! ## The trees of phrases have no placeholders -/

mutual

theorem IsAtom.intact : ∀ {ls : List Lexeme} {e : Expr}, IsAtom ls e → e.Intact
  | _, _, .int | _, _, .str | _, _, .true | _, _, .false | _, _, .name => by simp [Expr.Intact]
  | _, _, .emptySeq _ _ => by simp [Expr.Intact]
  | _, _, .seq hes _ => separated_intact hes
  | _, _, .parens he _ => (IsExpr.intact he).withSpan _
  | _, _, .lambda _ hb _ => (IsExpr.intact hb :)
  | _, _, .block _ _ hb _ => IsBlock.intact hb

theorem IsApplied.intact : ∀ {ls : List Lexeme} {e : Expr}, IsApplied ls e → e.Intact
  | _, _, .atom he => IsAtom.intact he
  | _, _, .call hf has => ⟨IsApplied.intact hf, separated_intact has⟩
  | _, _, .index he hi => ⟨IsApplied.intact he, IsExpr.intact hi⟩

theorem IsOperand.intact : ∀ {ls : List Lexeme} {e : Expr}, IsOperand ls e → e.Intact
  | _, _, .applied he => IsApplied.intact he
  | _, _, .unary _ he => (IsOperand.intact he :)

theorem IsChain.intact : ∀ {ls : List Lexeme} {rest : List (BinaryOp × Expr)}, IsChain ls rest →
    ∀ p ∈ rest, p.2.Intact
  | _, _, .nil => by simp
  | _, _, .cons _ he hrest =>
      List.forall_mem_cons.2 ⟨IsOperand.intact he, IsChain.intact hrest⟩

theorem IsExpr.intact : ∀ {ls : List Lexeme} {e : Expr}, IsExpr ls e → e.Intact
  | _, _, .chain hfirst hrest => climb_intact (IsOperand.intact hfirst) (IsChain.intact hrest)

theorem separated_intact : ∀ {allowTrailing : Bool} {ls : List Lexeme} {es : List Expr},
    Separated IsExpr IsComma allowTrailing ls es → Expr.IntactList es
  | _, _, _, .nil => trivial
  | _, _, _, .last he => ⟨IsExpr.intact he, trivial⟩
  | _, _, _, .trailing he _ => ⟨IsExpr.intact he, trivial⟩
  | _, _, _, .cons he _ hes => ⟨IsExpr.intact he, separated_intact hes⟩

theorem IsSentence.intact : ∀ {ls : List Lexeme} {k : Stmt}, IsSentence ls k → k.Intact
  | _, _, .declareTyped _ _ he _ => IsExpr.intact he
  | _, _, .declare he _ => IsExpr.intact he
  | _, _, .declareShort he _ => IsExpr.intact he
  | _, _, .assign he _ => IsExpr.intact he
  | _, _, .ifThen he hb _ => ⟨IsExpr.intact he, IsBlock.intact hb⟩
  | _, _, .ifElse he hb hd _ => ⟨IsExpr.intact he, IsBlock.intact hb, IsBlock.intact hd⟩
  | _, _, .while he hb _ => ⟨IsExpr.intact he, IsBlock.intact hb⟩
  | _, _, .return hes _ => separated_intact hes
  | _, _, .expr he => IsExpr.intact he

theorem IsStmt.intact : ∀ {ls : List Lexeme} {k : Stmt}, IsStmt ls k → k.Intact
  | _, _, .plain hk => IsSentence.intact hk
  | _, _, .ended hk => IsSentence.intact hk

theorem many_intact : ∀ {ls : List Lexeme} {b : List Stmt}, Many IsStmt ls b → Stmt.IntactBlock b
  | _, _, .nil => trivial
  | _, _, .cons hk hb => ⟨IsStmt.intact hk, many_intact hb⟩

theorem IsBlock.intact : ∀ {ls : List Lexeme} {b : List Stmt}, IsBlock ls b → Stmt.IntactBlock b
  | _, _, .braces hb => many_intact hb

end

theorem IsProgram.intact {ls : List Lexeme} {p : Program} (h : IsProgram ls p) : p.Intact := by
  unfold IsProgram at h
  unfold Program.Intact
  generalize p.functions = fs at h ⊢
  induction h with
  | nil => simp
  | cons hf _ ih =>
      obtain ⟨-, -, hbody, -⟩ := hf
      exact List.forall_mem_cons.2 ⟨hbody.intact, ih⟩

end Phrase

end Rivulet.Source
