import Rivulet.Check.Env
import Rivulet.Typed.Tree
import Rivulet.Typing.Fault

/-!
# Checking rules

One rule for each form of expression and for `return`. A rule is given the parts of the expression,
already checked, and gives the checked expression with what is wrong with it. The recursion over
programs stands apart, in `Rivulet.Check.Program`.

Every rule gives type `poison` to what it rejects, and none of them rejects something only because
a part of it has type `poison`.
-/

set_option autoImplicit false

namespace Rivulet.Check

open Typing (Finding Fault Place Blame expect)

/-- A checked result with what was found on the way. -/
abbrev Checked := Report (Finding Ty)

/-- Report a fault. -/
def reject (fault : Fault Ty) (span : Span) : Checked Unit :=
  Report.tell { fault := fault, span := span }

/-! ## Leaves -/

/-- A literal. -/
def literal (v : Source.Literal) (span : Span) : Typed.Expr :=
  match v with
  | .int n => .int n ⟨.int, span⟩
  | .str s => .str s ⟨.str, span⟩
  | .bool b => .bool b ⟨.bool, span⟩

/-- A name used as a value. -/
def name (env : Env) (x : String) (span : Span) : Checked Typed.Expr :=
  match env.meaning x with
  | .local t => pure (.local x ⟨t, span⟩)
  | .function s => pure (.function x ⟨.func s.params s.results, span⟩)
  | .builtin b =>
      match b.valueType? with
      | some t => pure (.builtin b ⟨t, span⟩)
      | none => do
          reject (.builtinValue b) span
          pure (.poison span)
  | .undefined => do
      reject (.undefinedSymbol x) span
      pure (.poison span)

/-- An empty sequence without a written element type. -/
def untypedEmpty (hint : Hint) (span : Span) : Checked Typed.Expr :=
  match hint with
  | .type (.seq t) => pure (.seq [] ⟨.seq t, span⟩)
  | .type .poison => pure (.seq [] ⟨.poison, span⟩)
  | _ => do
      reject .untypedEmpty span
      pure (.seq [] ⟨.poison, span⟩)

/-! ## Operators -/

/-- The type of the operand and of the result of a unary operator. -/
def unaryType : UnaryOp → Ty
  | .negate => .int
  | .not => .bool

/-- A unary operator. -/
def unary (op : UnaryOp) (e : Typed.Expr) (span : Span) : Checked Typed.Expr :=
  if e.ty = .poison then pure (.unary op e ⟨.poison, span⟩)
  else if e.ty = unaryType op then pure (.unary op e ⟨unaryType op, span⟩)
  else do
    reject (.unaryOperand op e.ty) e.span
    pure (.unary op e ⟨.poison, span⟩)

/-- A binary operator. A fault of one operand also points at the other. -/
def binary (op : BinaryOp) (l r : Typed.Expr) (span : Span) : Checked Typed.Expr :=
  match Typing.checkBinary op.rule l.ty r.ty with
  | .ok t => pure (.binary op l r ⟨t, span⟩)
  | .error f => do
      Report.tell <|
        match f.blame with
        | .left => { fault := .operands op f, span := l.span, others := [(r.span, r.ty)] }
        | .right => { fault := .operands op f, span := r.span, others := [(l.span, l.ty)] }
        | .both => { fault := .operands op f, span := span }
      pure (.binary op l r ⟨.poison, span⟩)

/-! ## Sequences -/

/-- Report the elements whose type differs from that of the first. The answer says whether there
was none. -/
def sameElements (first : Ty) : List Typed.Expr → Checked Bool
  | [] => pure true
  | e :: es => do
      if e.ty = first then sameElements first es
      else
        reject (.mixedElements first e.ty) e.span
        let _ ← sameElements first es
        pure false

/-- A sequence literal that is not empty. -/
def seq (first : Typed.Expr) (rest : List Typed.Expr) (span : Span) : Checked Typed.Expr :=
  if (first :: rest).any fun e => e.ty = .poison then
    pure (.seq (first :: rest) ⟨.poison, span⟩)
  else do
    let same ← sameElements first.ty rest
    pure (.seq (first :: rest) ⟨if same then .seq first.ty else .poison, span⟩)

/-- An element of a sequence. -/
def index (s i : Typed.Expr) (span : Span) : Checked Typed.Expr :=
  if s.ty = .poison ∨ i.ty = .poison then pure (.index s i ⟨.poison, span⟩)
  else
    match s.ty.element? with
    | some t => do
        let ok ← expect .sequenceIndex .int i.ty i.span
        pure (.index s i ⟨if ok then t else .poison, span⟩)
    | none => do
        reject (.notIndexable s.ty) s.span
        pure (.index s i ⟨.poison, span⟩)

/-! ## Calls -/

/-- The signature of a callee, if it can be called. -/
def signature? (callee : Typed.Expr) : Checked (Option Signature) :=
  match callee.ty with
  | .func ps rs => pure (some ⟨ps, rs⟩)
  | .poison => pure none
  | t => do
      reject (.notCallable t) callee.span
      pure none

/-- Compare the arguments from number `n` on with the parameters. The answer says whether nothing
was found wrong. -/
def arguments (n : Nat) : List Typed.Expr → List Ty → Checked Bool
  | a :: as, p :: ps => do
      let here ← expect (.argument n) p a.ty a.span
      let there ← arguments (n + 1) as ps
      pure (here && there)
  | _, _ => pure true

/-- A call. -/
def call (callee : Typed.Expr) (sig : Option Signature) (args : List Typed.Expr) (span : Span) :
    Checked Typed.Expr :=
  match sig with
  | none => pure (.call callee args ⟨.poison, span⟩)
  | some sig =>
      if args.length ≠ sig.params.length then do
        reject (.argumentCount sig.params.length args.length) span
        pure (.call callee args ⟨.poison, span⟩)
      else do
        let ok ← arguments 1 args sig.params
        let clean := ok && !args.any fun a => a.ty = .poison
        pure (.call callee args ⟨if clean then .ofResults sig.results else .poison, span⟩)

/-- The results of a builtin that can only be called directly. -/
def specialResults : Builtin → List Ty
  | .len => [.int]
  | _ => []

/-- The type of a direct call of such a builtin. -/
def specialType (b : Builtin) (args : List Typed.Expr) (span : Span) : Checked Ty :=
  match args with
  | [a] =>
      if a.ty = .poison then pure .poison
      else if b = .len ∧ a.ty.element? = none then do
        reject (.notSequence a.ty) a.span
        pure .poison
      else pure (.ofResults (specialResults b))
  | _ => do
      reject (.builtinArguments b args.length) span
      pure .poison

/-- A direct call of such a builtin. -/
def specialCall (b : Builtin) (calleeSpan : Span) (args : List Typed.Expr) (span : Span) :
    Checked Typed.Expr := do
  let callee := .builtin b ⟨.func (args.map Typed.Expr.ty) (specialResults b), calleeSpan⟩
  let t ← specialType b args span
  pure (.call callee args ⟨t, span⟩)

/-- The builtin that a callee names, if it can only be called directly. -/
def special? (env : Env) : Source.Expr → Option Builtin
  | .name x _ =>
      match env.meaning x with
      | .builtin .len => some .len
      | .builtin .println => some .println
      | _ => none
  | _ => none

/-! ## Closures -/

/-- The parameters of a closure with an expression, from number `i` on. -/
def openParams (hint : Hint) (i : Nat) : List Source.OpenParam → Checked (List Typed.Param)
  | [] => pure []
  | p :: ps => do
      let t ←
        match p.ty.map typeOf, hint.param? i with
        | some t, _ => pure t
        | none, some t => pure t
        | none, none => do
            reject (.untypedParam p.name) p.span
            pure Ty.poison
      let ps ← openParams hint (i + 1) ps
      pure (⟨p.name, t, p.span⟩ :: ps)

/-- The parameters of a closure with a block. -/
def params (ps : List Source.Param) : List Typed.Param :=
  ps.map fun p => ⟨p.name, typeOf p.ty, p.span⟩

/-- Parameters as declarations. -/
def declarations (ps : List Typed.Param) : List (String × Ty) := ps.map fun p => (p.name, p.ty)

/-- A closure. -/
def closure (ps : List Typed.Param) (results : List Ty) (body : List Typed.Stmt)
    (captures : List String) (span : Span) : Typed.Expr :=
  .closure ps results body captures ⟨.func (ps.map Typed.Param.ty) results, span⟩

/-- A closure whose body is an expression. It gives what the expression gives, which is nothing if
that is a call without results. -/
def lambda (ps : List Typed.Param) (value : Typed.Expr) (captures : List String) (span : Span) :
    Typed.Expr :=
  if value.ty = .unit then closure ps [] [.expr value value.span] captures span
  else closure ps value.ty.toResults [.return [value] value.span] captures span

/-! ## Statements -/

/-- The results that returned values stand for. A single call may supply all results at once. -/
def returned (expected : List Ty) (values : List Typed.Expr) : List Ty :=
  match values with
  | [v] => if 1 < expected.length then v.ty.toResults else [v.ty]
  | vs => vs.map Typed.Expr.ty

/-- Compare returned values with the expected results. -/
def return_ (expected : List Ty) (values : List Typed.Expr) (span : Span) : Checked Unit :=
  let found := returned expected values
  if found.any fun t => t = .poison then pure ()
  else if found.length ≠ expected.length then
    reject (.returnCount expected.length found.length) span
  else
    match (expected.zip found).find? fun (e, f) => e ≠ f with
    | some (e, f) => reject (.returnType e f) span
    | none => pure ()

/-- Check an assignment to a name, given what is known of it. -/
def assignment (l : Option Local) (x : String) (value : Typed.Expr) (span : Span) : Checked Unit :=
  match l with
  | none => reject (.undeclared x) span
  | some l =>
      if l.isConst then reject (.constant x) span
      else do
        let _ ← expect (.assignment x) l.ty value.ty value.span
        pure ()

/-- Check the value of a declaration against its written type, and give the type of the name. -/
def declaration (x : String) (written : Option Ty) (value : Typed.Expr) : Checked Ty :=
  match written with
  | none => pure value.ty
  | some t => do
      let _ ← expect (.initializer x) t value.ty value.span
      pure t

end Rivulet.Check
