import Rivulet.Machine.Session

set_option autoImplicit false

/-! # What operations give

Most operations of the machine only look at the store, and most of their results are *scalars*: values
that name no cell and no sequence. Each operation is described here once, by what is known if it ends
with a value. At the end it is said what evaluating an operator comes to, so that the walks over
expressions need not go through the operators one by one. -/

namespace Rivulet.Machine

open Ir

/-- A value that names neither a cell nor a sequence, nor holds one that does. -/
def Value.Scalar : Value → Prop
  | .unit | .int _ | .bool _ | .str _ => True
  | .slice _ | .func _ | .tuple _ => False

variable {s t : Store}

/-! ## Kinds of values -/

theorem asInt_ok {v : Value} {n : Int64} (h : asInt v s = .ok n t) : t = s ∧ v = .int n := by
  cases v <;> cases h
  exact ⟨rfl, rfl⟩

theorem asBool_ok {v : Value} {b : Bool} (h : asBool v s = .ok b t) : t = s ∧ v = .bool b := by
  cases v <;> cases h
  exact ⟨rfl, rfl⟩

theorem asSlice_ok {v : Value} {a : SliceAddr} (h : asSlice v s = .ok a t) :
    t = s ∧ v = .slice a := by
  cases v <;> cases h
  exact ⟨rfl, rfl⟩

theorem asCallable_ok {v : Value} {c : Callable} (h : asCallable v s = .ok c t) :
    t = s ∧ v = .func c := by
  cases v <;> cases h
  exact ⟨rfl, rfl⟩

/-! ## Operators -/

theorem Word.binary_scalar {op : BinaryOp} {a b : Int64} {v : Value}
    (h : Word.binary op a b = .ok v) : v.Scalar := by
  cases op <;> simp only [Word.binary] at h <;> (try split at h) <;> cases h <;> trivial

theorem strings?_scalar {op : BinaryOp} {a b : String} {v : Value} (h : strings? op a b = some v) :
    v.Scalar := by
  cases op <;> simp only [strings?] at h <;> cases h <;> trivial

theorem unary_ok {op : UnaryOp} {v w : Value} (h : unary op v s = .ok w t) : t = s ∧ w.Scalar := by
  cases op <;> cases v <;> cases h <;> exact ⟨rfl, trivial⟩

theorem binary_ok {op : BinaryOp} {v w x : Value} (h : binary op v w s = .ok x t) :
    t = s ∧ x.Scalar := by
  unfold binary at h
  by_cases heq : op = .eq
  · rw [if_pos heq] at h
    cases h
    exact ⟨rfl, trivial⟩
  by_cases hne : op = .notEq
  · rw [if_neg heq, if_pos hne] at h
    cases h
    exact ⟨rfl, trivial⟩
  rw [if_neg heq, if_neg hne] at h
  -- two integers or two strings; anything else is a clash
  cases v with
  | int a =>
      cases w with
      | int b =>
          cases hb : Word.binary op a b with
          | ok y =>
              simp only [hb] at h
              cases h
              exact ⟨rfl, Word.binary_scalar hb⟩
          | error e =>
              simp only [hb] at h
              cases h
      | _ => cases h
  | str a =>
      cases w with
      | str b =>
          cases hb : strings? op a b with
          | some y =>
              simp only [hb] at h
              cases h
              exact ⟨rfl, strings?_scalar hb⟩
          | none =>
              simp only [hb] at h
              cases h
      | _ => cases h
  | _ => cases h

/-! ## Sequences and builtins -/

theorem position_ok {i : Int64} {n k : Nat} {b : Bounds} (h : position i n b s = .ok k t) :
    t = s ∧ k < n := by
  unfold position at h
  split at h
  · rename_i hk
    cases h
    exact ⟨rfl, hk.2⟩
  · cases b <;> cases h

/-- A builtin may print, but apart from that it changes nothing. -/
theorem builtin_ok {b : Builtin} {vs : List Value} {w : Value} (h : builtin b vs s = .ok w t) :
    t = { s with output := t.output } ∧ w.Scalar := by
  unfold builtin at h
  split at h <;> cases h <;> exact ⟨rfl, trivial⟩

/-! ## Expressions with two operands

Apart from maps, there are two kinds of operators: `&&` and `||` evaluate the right operand only if it is
needed, and all others evaluate both operands. -/

/-- Whether the right operand of `&&` or `||` is evaluated, given the value of the left one. -/
def needsRight (op : BinaryOp) (b : Bool) : Bool := if op = .and then b else !b

/-- What `&&` and `||` do: the value of the left operand stands unless the right one is needed. -/
theorem eval_logical {op : BinaryOp} (hop : op = .and ∨ op = .or) (m : Engine) (fr : Frame)
    (l r : Expr) (common : Option Ir.Ty) (facts : Option MapFacts) (i : Info) :
    eval m fr (.binary op l r common facts i) = (do
      let v ← eval m fr l
      let b ← asBool v
      if needsRight op b then
        let w ← eval m fr r
        let c ← asBool w
        pure (.bool c)
      else pure (.bool b)) := by
  rcases hop with rfl | rfl
  · simp only [eval, reduceCtorEq, if_false, if_true, needsRight]
    refine bind_congr fun v => bind_congr fun b => ?_
    cases b <;> rfl
  · simp only [eval, reduceCtorEq, if_false, if_true, needsRight]
    refine bind_congr fun v => bind_congr fun b => ?_
    cases b <;> rfl

/-- What all other operators do. -/
theorem eval_operator {op : BinaryOp} (hmap : op ≠ .map) (hop : ¬ (op = .and ∨ op = .or))
    (m : Engine) (fr : Frame) (l r : Expr) (common : Option Ir.Ty) (facts : Option MapFacts)
    (i : Info) :
    eval m fr (.binary op l r common facts i) = (do
      let v ← eval m fr l
      let w ← eval m fr r
      binary op v w) := by
  rw [not_or] at hop
  simp only [eval, if_neg hmap, if_neg hop.1, if_neg hop.2]

end Rivulet.Machine
