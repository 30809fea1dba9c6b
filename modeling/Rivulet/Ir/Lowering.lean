import Rivulet.Ir.Breach
import Rivulet.Ir.Tree

/-!
# Lowering of maps

Lowering replaces every map `s |> f` by statements that a machine can run directly:

    let $seq = s
    let $fn = f
    let $len = len($seq)
    let $out = alloc [U; $len]
    for $i in 0..$len { $out[$i]! = $fn($seq[$i]!) }

and puts `$out` where the map was. The statements are *hoisted* in front of the statement that held
the map, so an expression is lowered to hoisted statements and an expression to be evaluated after
them. The order of evaluation is kept:

* operands that are evaluated before an operand with hoisted statements are *spilled*, that is, moved
  to temporaries, unless their value cannot change;
* `a && b` and `a || b` become an `if` on a temporary if `b` hoists something;
* what a loop condition hoists is run again in every round.

Only temporaries are added to a function. Main definition: `Module.lower`.
-/

set_option autoImplicit false

namespace Rivulet.Ir

namespace Lowering

/-- What changes while a function is lowered: its context, and the number of maps replaced so far.
It is kept when lowering fails. -/
structure State where
  ctx : Context
  lowered : Nat

/-- The lowering of a part of a function. -/
abbrev Lower := ExceptT Breach (StateM State)

/-- Expressions to be evaluated after some statements. -/
abbrev Hoisted (α : Type) := List Stmt × α

/-! ## Small pieces of code -/

/-- A new temporary. -/
def freshTemp (hint : String) (ty : Ty) : Lower LocalId := do
  let st ← get
  let (x, ctx) := st.ctx.freshTemp hint ty
  set { st with ctx := ctx }
  pure x

/-- Bind a temporary to a value. -/
def bindTemp (hint : String) (value : Expr) : Lower (Stmt × Expr) := do
  let x ← freshTemp hint value.ty
  pure (.bind x value, .local x value.info)

/-- Whether later statements cannot change the value of an expression. -/
def isStable (ctx : Context) : Expr → Bool
  | .const _ _ | .function _ _ | .builtin _ _ => true
  | .local x _ => ctx.isTemp x
  | _ => false

/-- Move an expression to a temporary, unless it is stable. -/
def spill (e : Expr) : Lower (Hoisted Expr) := do
  if isStable (← get).ctx e then pure ([], e)
  else
    let (s, e) ← bindTemp "spill" e
    pure ([s], e)

/-- Spill an expression if statements come between it and its use. -/
def spillBefore (later : List Stmt) (e : Expr) : Lower (Hoisted Expr) :=
  if later.isEmpty then pure ([], e) else spill e

/-- Spill expressions if statements come between them and their use. -/
def spillAllBefore (later : List Stmt) : List Expr → Lower (Hoisted (List Expr))
  | [] => pure ([], [])
  | e :: es => do
      let (h, e) ← spillBefore later e
      let (h', es) ← spillAllBefore later es
      pure (h ++ h', e :: es)

/-- The negation of a condition. -/
def negate (e : Expr) : Expr := .unary .not e ⟨.bool, e.span⟩

/-- A loop whose condition hoists statements: they are run in front of the condition in every
round. -/
def loop (hoisted : List Stmt) (c : Expr) (body : List Stmt) : Stmt :=
  if hoisted.isEmpty then .while c body
  else
    .while (.const (.bool true) ⟨.bool, c.span⟩)
      (hoisted ++ [.if (negate c) [.break] []] ++ body)

/-- `l && r` or `l || r` where `r` is to be evaluated after the statements `hoisted`. -/
def shortCircuit (op : BinaryOp) (l : Expr) (hoisted : List Stmt) (r : Expr) :
    Lower (Hoisted Expr) := do
  let x ← freshTemp "cond" .bool
  let current : Expr := .local x ⟨.bool, l.span⟩
  let test := if op = .and then current else negate current
  pure ([.bind x l, .if test (hoisted ++ [.assign x r]) []], current)

/-- The facts, the element type of the result and that of the sequence of a map. -/
def mapParts (s : Expr) (facts : Option MapFacts) (i : Info) : Except Breach (MapFacts × Ty × Ty) :=
  match facts with
  | none => .error ⟨.mapWithoutFacts, i.span⟩
  | some facts =>
      match i.ty.element? with
      | none => .error ⟨.mapType i.ty, i.span⟩
      | some result =>
          match s.ty.element? with
          | none => .error ⟨.mapOperand s.ty, i.span⟩
          | some element => .ok (facts, result, element)

/-- The loop of a map, given the temporaries for the sequence and the callable. -/
def mapLoop (site : Site) (result element : Ty) (i : Info) (seq fn : Expr) :
    Lower (Hoisted Expr) := do
  let (bindLen, len) ← bindTemp "len" (.len seq ⟨.i64, i.span⟩)
  let (bindOut, out) ← bindTemp "out" (.alloc result len site i)
  let x ← freshTemp "i" .i64
  let counter : Expr := .local x ⟨.i64, i.span⟩
  let call : Expr := .call fn [.index seq counter .elided ⟨element, i.span⟩] ⟨result, i.span⟩
  modify fun st => { st with lowered := st.lowered + 1 }
  pure
    ([bindLen, bindOut,
      .for x (.const (.int 0) ⟨.i64, i.span⟩) len [.store out counter call .elided]], out)

/-! ## The recursion -/

mutual

/-- Lower an expression. -/
def expr : Expr → Lower (Hoisted Expr)
  | .const c i => pure ([], .const c i)
  | .local x i => pure ([], .local x i)
  | .function f i => pure ([], .function f i)
  | .builtin b i => pure ([], .builtin b i)
  | .unary op e i => do
      let (h, e) ← expr e
      pure (h, .unary op e i)
  | .binary op l r t facts i => do
      if op = .map then
        let (facts, result, element) ← mapParts l facts i
        let (h₁, l) ← expr l
        let (bindSeq, seq) ← bindTemp "seq" l
        let (h₂, r) ← expr r
        let (bindFn, fn) ← bindTemp "fn" r
        let (h₃, out) ← mapLoop facts.result result element i seq fn
        pure (h₁ ++ [bindSeq] ++ h₂ ++ [bindFn] ++ h₃, out)
      else
        let (h₁, l) ← expr l
        let (h₂, r) ← expr r
        if op = .and ∨ op = .or then
          if h₂.isEmpty then pure (h₁, .binary op l r t facts i)
          else
            let (h₃, e) ← shortCircuit op l h₂ r
            pure (h₁ ++ h₃, e)
        else
          let (s, l) ← spillBefore h₂ l
          pure (h₁ ++ s ++ h₂, .binary op l r t facts i)
  | .call f as i => do
      let (h₁, f) ← expr f
      let (h₂, es) ← exprs [f] as
      match es with
      | f :: as => pure (h₁ ++ h₂, .call f as i)
      | [] => pure (h₁ ++ h₂, .call f [] i)
  | .index s p b i => do
      let (h₁, s) ← expr s
      let (h₂, p) ← expr p
      let (h, s) ← spillBefore h₂ s
      pure (h₁ ++ h ++ h₂, .index s p b i)
  | .len e i => do
      let (h, e) ← expr e
      pure (h, .len e i)
  | .alloc t e s i => do
      let (h, e) ← expr e
      pure (h, .alloc t e s i)
  | .slice es s i => do
      let (h, es) ← exprs [] es
      pure (h, .slice es s i)
  | .closure ps rs cs b i => do
      let b ← block b
      pure ([], .closure ps rs cs b i)
termination_by structural e => e

/-- Lower expressions that are evaluated from left to right, after the expressions `done` that are
lowered already. The answer holds the latter too, since they may have to be spilled. -/
def exprs (done : List Expr) : List Expr → Lower (Hoisted (List Expr))
  | [] => pure ([], done)
  | e :: es => do
      let (h, e) ← expr e
      let (s, done) ← spillAllBefore h done
      let (h', all) ← exprs (done ++ [e]) es
      pure (s ++ h ++ h', all)
termination_by structural es => es

/-- Lower a statement. -/
def stmt : Stmt → Lower (List Stmt)
  | .bind x e => do
      let (h, e) ← expr e
      pure (h ++ [.bind x e])
  | .assign x e => do
      let (h, e) ← expr e
      pure (h ++ [.assign x e])
  | .store s p v b => do
      let (h₁, s) ← expr s
      let (h₂, p) ← expr p
      let (s₁, s) ← spillBefore h₂ s
      let (h₃, v) ← expr v
      let (s₂, s) ← spillBefore h₃ s
      let (s₃, p) ← spillBefore h₃ p
      pure (h₁ ++ s₁ ++ h₂ ++ s₂ ++ s₃ ++ h₃ ++ [.store s p v b])
  | .expr e => do
      let (h, e) ← expr e
      pure (h ++ [.expr e])
  | .return es => do
      let (h, es) ← exprs [] es
      pure (h ++ [.return es])
  | .if c t e => do
      let (h, c) ← expr c
      let t ← block t
      let e ← block e
      pure (h ++ [.if c t e])
  | .while c b => do
      let (h, c) ← expr c
      let b ← block b
      pure [loop h c b]
  | .break => pure [.break]
  | .for x a z b => do
      let (h₁, a) ← expr a
      let (h₂, z) ← expr z
      let (s, a) ← spillBefore h₂ a
      let b ← block b
      pure (h₁ ++ s ++ h₂ ++ [.for x a z b])
termination_by structural s => s

/-- Lower a block. -/
def block : List Stmt → Lower (List Stmt)
  | [] => pure []
  | s :: ss => do
      let s ← stmt s
      let ss ← block ss
      pure (s ++ ss)
termination_by structural ss => ss

end

/-! ## Modules -/

/-- Lower functions in order, up to the first that fails. -/
def functions (lower : Function → Except Breach Nat × Function) :
    List Function → Except Breach Nat × List Function
  | [] => (.ok 0, [])
  | f :: fs =>
      match lower f with
      | (.error e, f) => (.error e, f :: fs)
      | (.ok n, f) =>
          let (r, fs) := functions lower fs
          (r.map (n + ·), f :: fs)

end Lowering

/-- Lower a function. The answer is the number of maps that were replaced. If lowering fails, the
body is lost. -/
def Function.lower (f : Function) : Except Breach Nat × Function :=
  match (Lowering.block f.body).run.run ⟨f.ctx, 0⟩ with
  | (.ok b, st) => (.ok st.lowered, { f with body := b, ctx := st.ctx })
  | (.error e, st) => (.error e, { f with body := [], ctx := st.ctx })

/-- Lower a module. The answer is the number of maps that were replaced. If a function fails, those
before it are lowered and those after it are untouched. -/
def Module.lower (m : Module) : Except Breach Nat × Module :=
  let (r, fs) := Lowering.functions Function.lower m.functions
  (r, ⟨fs⟩)

end Rivulet.Ir
