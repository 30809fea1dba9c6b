import Rivulet.Grammar.Basic
import Rivulet.Source.Climb

/-!
# The grammar of the language

The grammar of written programs, as a value of type `Gram`. Types, expressions and statements are
rules, because they occur inside of themselves; everything else is a definition.

Some consequences of the order of the alternatives:

* a closure is tried before a name and before an expression in parentheses, so `x -> e` and
  `(x) -> e` are closures and the body `e` extends as far to the right as it can;
* a closure with a block has a type on every parameter, so `if (ok) { … }` remains a condition;
* a line break never ends a statement, and a semicolon behind a statement may be left out.
-/

set_option autoImplicit false

namespace Rivulet.Source

open Grammar

/-- The rules of the grammar, by the type of tree they read. -/
inductive Rule : Type → Type where
  | type : Rule TypeExpr
  | expr : Rule Expr
  | stmt : Rule Stmt

/-- Grammars over these rules. -/
abbrev G := Gram Rule

namespace G

/-! ## Tokens -/

/-- A mark. -/
def mark (m : Mark) : G Token := .token (.mark m)

/-- A keyword. -/
def word (k : Keyword) : G Token := .token (.keyword k)

/-- A name. -/
def ident : G String :=
  .pick fun
    | .ident x => some x
    | _ => none

/-- Items with commas between them, and possibly one behind them. -/
def commas {α : Type} (item : G α) : G (List α) := .sepBy item (mark .comma) true

/-- Something in parentheses. -/
def parens {α : Type} (a : G α) : G α := .between (mark .lparen) a (mark .rparen)

/-- Something in square brackets. -/
def brackets {α : Type} (a : G α) : G α := .between (mark .lbracket) a (mark .rbracket)

/-! ## Recovery inside brackets -/

/-- The token of a mark and that of its partner. -/
def pair (o c : Mark) : Token × Token := (.mark o, .mark c)

def parenPair : Token × Token := pair .lparen .rparen

def bracketPair : Token × Token := pair .lbracket .rbracket

def bracePair : Token × Token := pair .lbrace .rbrace

/-- Balance the first pair and watch the other two. -/
def balancing (p q r : Token × Token) : Brackets := ⟨p.1, p.2, [q, r]⟩

/-! ## Types -/

/-- The result list behind an arrow: one type, or several in parentheses. -/
def results : G (List TypeExpr) :=
  .orElse (.map (fun t => [t]) (.rule .type)) (parens (commas (.rule .type)))

/-- The results of a function, none if there is no arrow. -/
def arrowResults : G (List TypeExpr) :=
  .map (fun rs => rs.getD []) (.optional (.right (mark .arrow) results))

/-- The name of a type. -/
def typeName : G TypeExpr :=
  .pick fun
    | .ident x => (TypeName.ofSpelling? x).map TypeExpr.named
    | _ => none

/-- A type. -/
def type : G TypeExpr :=
  .orElse
    (.orElse typeName (.map TypeExpr.seq (brackets (.rule .type))))
    (.map (fun (ps, rs) => TypeExpr.func ps rs)
      (.seq (.right (word .fn) (parens (commas (.rule .type)))) arrowResults))

/-! ## Parameters and blocks -/

/-- A parameter with its type. -/
def param : G Param :=
  .located (fun (x, t) s => ⟨x, t, s⟩) (.seq (.left ident (mark .colon)) (.rule .type))

/-- A parameter whose type may be left out. -/
def openParam : G OpenParam :=
  .located (fun (x, t) s => ⟨x, t, s⟩)
    (.seq ident (.optional (.right (mark .colon) (.rule .type))))

/-- Statements in braces. -/
def block : G (List Stmt) :=
  .orSkipBrackets (.between (mark .lbrace) (.many (.rule .stmt)) (mark .rbrace))
    (balancing bracePair parenPair bracketPair) fun s => [.error s]

/-! ## Expressions -/

/-- A literal without parts. -/
def literal : G Expr :=
  .located Expr.literal <|
    .pick fun
      | .int n => some (.int n)
      | .str s => some (.str s)
      | .keyword .true => some (.bool true)
      | .keyword .false => some (.bool false)
      | _ => none

/-- A name used as an expression. -/
def name : G Expr := .located Expr.name ident

/-- A closure with a block. -/
def blockClosure : G Expr :=
  .located (fun ((ps, rs), b) s => .block ps rs b [] s)
    (.seq (.seq (parens (commas param)) arrowResults) block)

/-- A closure with an expression. -/
def lambda : G Expr :=
  .located (fun (ps, e) s => .lambda ps e [] s)
    (.seq
      (.left (.orElse (parens (commas openParam)) (.map (fun p => [p]) openParam)) (mark .arrow))
      (.rule .expr))

/-- An empty sequence with its element type. -/
def emptySeq : G Expr :=
  .located Expr.emptySeq (.right (.seq (mark .lbracket) (mark .rbracket)) (.rule .type))

/-- A sequence literal. -/
def seq : G Expr :=
  .orSkipBrackets (.located Expr.seq (brackets (commas (.rule .expr))))
    (balancing bracketPair parenPair bracePair) Expr.error

/-- An expression in parentheses. -/
def parenthesized : G Expr :=
  .orSkipBrackets (.located Expr.withSpan (parens (.rule .expr)))
    (balancing parenPair bracketPair bracePair) Expr.error

/-- An expression without operators, calls and subscripts. -/
def atom : G Expr :=
  .orElse
    (.orElse (.orElse (.orElse (.orElse (.orElse blockClosure lambda) literal) name) emptySeq) seq)
    parenthesized

/-- What may follow an atom: it is applied to the expression in front of it. -/
inductive Suffix where
  | call (args : List Expr) (span : Span)
  | index (position : Expr) (span : Span)

/-- The expression `e` followed by a suffix. -/
def Suffix.apply (e : Expr) : Suffix → Expr
  | .call args s => .call e args (e.span.through s)
  | .index i s => .index e i (e.span.through s)

/-- A call or a subscript. -/
def suffix : G Suffix :=
  .orElse (.located Suffix.call (parens (commas (.rule .expr))))
    (.located Suffix.index (brackets (.rule .expr)))

/-- An atom with its suffixes. -/
def applied : G Expr :=
  .map (fun (e, ss) => ss.foldl Suffix.apply e) (.seq atom (.many suffix))

/-- A unary operator and where it stands. -/
def unaryOp : G (UnaryOp × Span) :=
  .located (fun op s => (op, s))
    (.orElse (.as (mark .minus) .negate) (.as (mark .not) .not))

/-- The expression `e` with a unary operator in front. -/
def applyUnary (op : UnaryOp × Span) (e : Expr) : Expr := .unary op.1 e (op.2.through e.span)

/-- An applied atom with unary operators in front of it. -/
def operand : G Expr :=
  .map (fun (ops, e) => ops.foldr applyUnary e) (.seq (.many unaryOp) applied)

/-- The binary operator of a token. -/
def binaryOp? : Token → Option BinaryOp
  | .mark .pipeMap => some .map
  | .mark .or => some .or
  | .mark .and => some .and
  | .mark .doubleEq => some .eq
  | .mark .notEq => some .notEq
  | .mark .lt => some .lt
  | .mark .gt => some .gt
  | .mark .ltEq => some .ltEq
  | .mark .gtEq => some .gtEq
  | .mark .pipe => some .bitOr
  | .mark .caret => some .bitXor
  | .mark .ampersand => some .bitAnd
  | .mark .plus => some .add
  | .mark .minus => some .sub
  | .mark .star => some .mul
  | .mark .slash => some .div
  | .mark .percent => some .mod
  | .mark .pow => some .pow
  | _ => none

/-- An expression: operands with binary operators between them, grouped by `climb`. -/
def expr : G Expr :=
  .map (fun (e, rest) => climb e rest) (.seq operand (.many (.seq (.pick binaryOp?) operand)))

/-! ## Statements -/

/-- The type and the equals sign of a declaration. -/
def declaredType : G (Option TypeExpr) :=
  .orElse
    (.map some
      (.left (.right (mark .colon) (.rule .type)) (.orElse (mark .eq) (mark .colonEq))))
    (.as (mark .colonEq) none)

/-- `var x := e`, `const x: T = e` -/
def declaration : G (Span → Stmt) :=
  .map (fun (((c, x), t), e) s => .declare c x t e s)
    (.seq
      (.seq (.seq (.orElse (.as (word .var) false) (.as (word .const) true)) ident) declaredType)
      (.rule .expr))

/-- `x := e` -/
def shortDeclaration : G (Span → Stmt) :=
  .map (fun (x, e) s => .declare false x none e s)
    (.seq (.left ident (mark .colonEq)) (.rule .expr))

/-- `x = e` -/
def assignment : G (Span → Stmt) :=
  .map (fun (x, e) s => .assign x e s) (.seq (.left ident (mark .eq)) (.rule .expr))

/-- `if c { … }` or `if c { … } else { … }` -/
def conditional : G (Span → Stmt) :=
  .map
    (fun ((c, b), d) s =>
      match d with
      | none => .ifThen c b s
      | some d => .ifElse c b d s)
    (.seq (.seq (.right (word .if) (.rule .expr)) block)
      (.optional (.right (word .else) block)))

/-- `while c { … }` -/
def loop : G (Span → Stmt) :=
  .map (fun (c, b) s => .while c b s) (.seq (.right (word .while) (.rule .expr)) block)

/-- `return`, `return e`, `return e, e` -/
def return_ : G (Span → Stmt) :=
  .map (fun es s => .return es s)
    (.right (word .return) (.sepBy (.rule .expr) (mark .comma) false))

/-- An expression as a statement. -/
def exprStmt : G (Span → Stmt) := .map (fun e s => .expr e s) (.rule .expr)

/-- A statement, with an optional semicolon that does not belong to its span. -/
def stmt : G Stmt :=
  .left
    (.located (fun k s => k s)
      (.orElse
        (.orElse
          (.orElse (.orElse (.orElse (.orElse declaration shortDeclaration) assignment) conditional)
            loop)
          return_)
        exprStmt))
    (.optional (mark .semicolon))

/-! ## Programs -/

/-- A function definition. -/
def function : G Function :=
  .located (fun (((x, ps), rs), b) s => ⟨x, ps, rs, b, s⟩)
    (.seq (.seq (.seq (.right (word .function) ident) (parens (commas param))) arrowResults) block)

/-- A program. A function that cannot be read is skipped up to the next one that can. -/
def program : G Program :=
  .map Program.mk (.left (.many (.orSkipTokens function)) .finish)

end G

/-- The grammar of a rule. -/
def Rule.body {α : Type} : Rule α → G α
  | .type => G.type
  | .expr => G.expr
  | .stmt => G.stmt

end Rivulet.Source
