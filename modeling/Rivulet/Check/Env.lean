import Rivulet.Source.Tree
import Rivulet.Typed.Ty

/-!
# Names and types in scope

What the checker knows at a point of a program: the types of all functions, the locals in scope with
the innermost first, and the results that a `return` has to give here. Locals hide functions, and
functions hide builtins.
-/

set_option autoImplicit false

namespace Rivulet.Check

mutual

/-- The type that a written type denotes. -/
def typeOf : Source.TypeExpr → Ty
  | .named .int => .int
  | .named .string => .str
  | .named .bool => .bool
  | .seq t => .seq (typeOf t)
  | .func ps rs => .func (typesOf ps) (typesOf rs)
termination_by structural t => t

/-- The types that several written types denote. -/
def typesOf : List Source.TypeExpr → List Ty
  | [] => []
  | t :: ts => typeOf t :: typesOf ts
termination_by structural ts => ts

end

/-- What is known of a local. -/
structure Local where
  ty : Ty
  isConst : Bool
deriving DecidableEq

/-- The parameters and results of a function. -/
structure Signature where
  params : List Ty
  results : List Ty
deriving DecidableEq

/-- What is known at a point of a program. -/
structure Env where
  /-- The functions; of two definitions of one name the later stands first. -/
  functions : List (String × Signature)
  /-- The locals in scope, the innermost first. -/
  locals : List (String × Local)
  /-- The results of the function or closure around this point. -/
  results : List Ty

/-- What a name means. -/
inductive Meaning where
  | local (ty : Ty)
  | function (signature : Signature)
  | builtin (builtin : Builtin)
  | undefined

namespace Env

/-- The local of a name. -/
def local? (env : Env) (x : String) : Option Local := env.locals.lookup x

/-- What a name means here. -/
def meaning (env : Env) (x : String) : Meaning :=
  match env.local? x with
  | some l => .local l.ty
  | none =>
      match env.functions.lookup x with
      | some s => .function s
      | none =>
          match Builtin.ofName? x with
          | some b => .builtin b
          | none => .undefined

/-- Bring a local into scope. -/
def declare (env : Env) (x : String) (l : Local) : Env := { env with locals := (x, l) :: env.locals }

/-- Bring parameters into scope, one after the other. -/
def declareParams (env : Env) (ps : List (String × Ty)) : Env :=
  ps.foldl (fun env p => env.declare p.1 ⟨p.2, false⟩) env

end Env

/-- What the surroundings of an expression say about its type. -/
inductive Hint where
  | none
  /-- A value of this type is expected. -/
  | type (ty : Ty)
  /-- The expression stands to the right of a map whose left operand has this type. -/
  | mapOver (ty : Ty)
deriving DecidableEq

namespace Hint

/-- The type that the hint expects, if it is one. -/
def expected? : Hint → Option Ty
  | .type t => some t
  | _ => Option.none

/-- A hint for an optional type. -/
def ofOption : Option Ty → Hint
  | some t => .type t
  | Option.none => .none

/-- The type of the `i`-th parameter of a closure, as far as the surroundings give it. If they are
in error already, it is poison; nothing more is said about it. -/
def param? (i : Nat) : Hint → Option Ty
  | .type (.func ps _) => ps[i]?
  | .type .poison => some .poison
  | .mapOver t => some (t.element?.getD .poison)
  | _ => Option.none

end Hint

end Rivulet.Check
