import Rivulet.Proofs.Machine.Operations
import Mathlib.Tactic

set_option autoImplicit false

/-! # More time

Time decides whether a call ends, and nothing else. What ends within some time ends in the same way
within any longer time, with the same value or fault and in the same store. -/

namespace Rivulet.Machine

open Ir

variable {α β : Type}

/-- Wherever the first run ends, the second one ends in the same way. -/
def Run.Le (r r' : Run α) : Prop := ∀ s, r s ≠ .exhausted → r' s = r s

namespace Run.Le

theorem refl (r : Run α) : r.Le r := fun _ _ => rfl

/-- A run that never ends. -/
theorem of_exhausted (r : Run α) : Run.exhausted.Le r := fun _ h => absurd rfl h

theorem bind {r r' : Run α} {f f' : α → Run β} (hr : r.Le r') (hf : ∀ a, (f a).Le (f' a)) :
    (r >>= f).Le (r' >>= f') := by
  intro s hend
  rw [Run.bind_apply] at hend
  rw [Run.bind_apply, Run.bind_apply]
  cases hrun : r s with
  | ok a t =>
      rw [hrun] at hend
      rw [hr s (by rw [hrun]; nofun), hrun]
      exact hf a t hend
  | fault e t => rw [hr s (by rw [hrun]; nofun), hrun]
  | exhausted =>
      rw [hrun] at hend
      exact absurd rfl hend

end Run.Le

/-- The second engine has more time. -/
structure Engine.Le (m m' : Engine) : Prop where
  maps : m'.maps = m.maps
  call : ∀ f vs, (m.call f vs).Le (m'.call f vs)
  rounds : m.rounds ≤ m'.rounds

/-! ## Loops -/

section Loops

variable {cond cond' : Frame → Run Bool} {block block' : Frame → Run (Flow × Frame)}

theorem mapItems_le {call call' : Value → List Value → Run Value}
    (hcall : ∀ f vs, (call f vs).Le (call' f vs)) (f : Value) (a : SliceAddr) (n i : Nat)
    (done : Array Value) : (mapItems call f a n i done).Le (mapItems call' f a n i done) := by
  induction n generalizing i done with
  | zero => exact .refl _
  | succ n ih => exact .bind (.refl _) fun v => .bind (hcall f [v]) fun w => ih (i + 1) (done.push w)

theorem whileLoop_le (hcond : ∀ fr, (cond fr).Le (cond' fr)) (hblock : ∀ fr, (block fr).Le (block' fr))
    {k k' : Nat} (hk : k ≤ k') (fr : Frame) :
    (whileLoop cond block k fr).Le (whileLoop cond' block' k' fr) := by
  induction k generalizing k' fr with
  | zero => exact .of_exhausted _
  | succ k ih =>
      obtain ⟨k', rfl⟩ : ∃ j, k' = j + 1 := ⟨k' - 1, by omega⟩
      rw [whileLoop, whileLoop]
      refine .bind (hcond fr) fun b => ?_
      cases b with
      | false => exact .refl _
      | true =>
          refine .bind (hblock fr) fun p => ?_
          obtain ⟨flow, fr⟩ := p
          cases flow with
          | next => exact ih (Nat.le_of_succ_le_succ hk) fr
          | «break» | «return» => exact .refl _

theorem forLoop_le (hblock : ∀ fr, (block fr).Le (block' fr)) (x : LocalId) (n : Nat) (i : Int64)
    (fr : Frame) : (forLoop x block n i fr).Le (forLoop x block' n i fr) := by
  induction n generalizing i fr with
  | zero => exact .refl _
  | succ n ih =>
      rw [forLoop, forLoop]
      refine .bind (.refl _) fun fr => .bind (hblock fr) fun p => ?_
      obtain ⟨flow, fr⟩ := p
      cases flow with
      | next => exact ih (i + 1) fr
      | «break» | «return» => exact .refl _

end Loops

/-! ## The walk -/

section Walk

variable {m m' : Engine}

mutual

/-- Evaluating an expression with more time. -/
theorem eval_le (hm : m.Le m') : ∀ (e : Expr) (fr : Frame), (eval m fr e).Le (eval m' fr e)
  | .const _ _, _ => by
      simp only [eval]
      exact .refl _
  | .local _ _, _ | .function _ _, _ | .builtin _ _, _ => .refl _
  | .unary _ e _, fr => .bind (eval_le hm e fr) fun _ => .refl _
  | .binary op l r _ _ i, fr => by
      by_cases hmap : op = .map
      · simp only [eval, if_pos hmap, hm.maps]
        cases m.maps with
        | refuse => exact .refl _
        | direct =>
            refine .bind (eval_le hm l fr) fun _ => .bind (eval_le hm r fr) fun f => ?_
            refine .bind (.refl _) fun a => .bind (.refl _) fun n => ?_
            exact .bind (mapItems_le hm.call f a n 0 #[]) fun _ => .refl _
      by_cases hlogic : op = .and ∨ op = .or
      · simp only [eval_logical hlogic]
        refine .bind (eval_le hm l fr) fun _ => .bind (.refl _) fun b => ?_
        cases needsRight op b with
        | true => exact .bind (eval_le hm r fr) fun _ => .refl _
        | false => exact .refl _
      · simp only [eval_operator hmap hlogic]
        exact .bind (eval_le hm l fr) fun _ => .bind (eval_le hm r fr) fun _ => .refl _
  | .call f as _, fr =>
      .bind (eval_le hm f fr) fun v => .bind (evalList_le hm as fr) fun vs => hm.call v vs
  | .index s p _ _, fr => .bind (eval_le hm s fr) fun _ => .bind (eval_le hm p fr) fun _ => .refl _
  | .len e _, fr | .alloc _ e _ _, fr => .bind (eval_le hm e fr) fun _ => .refl _
  | .slice es _ _, fr => .bind (evalList_le hm es fr) fun _ => .refl _
  | .closure _ _ _ _ _, _ => .refl _

theorem evalList_le (hm : m.Le m') :
    ∀ (es : List Expr) (fr : Frame), (evalList m fr es).Le (evalList m' fr es)
  | [], _ => .refl _
  | e :: es, fr => .bind (eval_le hm e fr) fun _ => .bind (evalList_le hm es fr) fun _ => .refl _

end

mutual

/-- Executing a statement with more time. -/
theorem exec_le (hm : m.Le m') : ∀ (c : Stmt) (fr : Frame), (exec m fr c).Le (exec m' fr c)
  | .bind _ e, fr | .assign _ e, fr | .expr e, fr => .bind (eval_le hm e fr) fun _ => .refl _
  | .store s p v _, fr =>
      .bind (eval_le hm s fr) fun _ => .bind (eval_le hm p fr) fun _ =>
        .bind (eval_le hm v fr) fun _ => .refl _
  | .return es, fr => .bind (evalList_le hm es fr) fun _ => .refl _
  | .if c t e, fr => by
      simp only [exec]
      refine .bind (eval_le hm c fr) fun _ => .bind (.refl _) fun b => ?_
      cases b with
      | true => exact execBlock_le hm t fr
      | false => exact execBlock_le hm e fr
  | .while c b, fr =>
      whileLoop_le (fun fr => .bind (eval_le hm c fr) fun _ => .refl _)
        (fun fr => execBlock_le hm b fr)
        hm.rounds fr
  | .break, _ => .refl _
  | .for x a z b, fr =>
      .bind (eval_le hm a fr) fun _ => .bind (.refl _) fun first =>
        .bind (eval_le hm z fr) fun _ => .bind (.refl _) fun _ =>
          forLoop_le (fun fr => execBlock_le hm b fr) x _ first fr

theorem execBlock_le (hm : m.Le m') :
    ∀ (ss : List Stmt) (fr : Frame), (execBlock m fr ss).Le (execBlock m' fr ss)
  | [], _ => .refl _
  | c :: ss, fr => by
      simp only [execBlock]
      refine .bind (exec_le hm c fr) fun p => ?_
      obtain ⟨flow, fr⟩ := p
      cases flow with
      | next => exact execBlock_le hm ss fr
      | «break» | «return» => exact .refl _

end

variable (hm : m.Le m')

include hm

theorem activate_le (cells : List (LocalId × CellAddr)) (ps : List LocalId) (body : List Stmt)
    (vs : List Value) : (activate m cells ps body vs).Le (activate m' cells ps body vs) :=
  .bind (.refl _) fun _ => .bind (.refl _) fun fr => .bind (execBlock_le hm body fr) fun _ => .refl _

theorem Code.callOn_le (code : Code) (name : String) (vs : List Value) :
    (code.callOn m name vs).Le (code.callOn m' name vs) := by
  unfold Code.callOn
  cases code.functions.lookup name with
  | none => exact .refl _
  | some f => exact activate_le hm [] f.params f.body vs

end Walk

/-! ## Calls -/

/-- **Engines of a longer time** do what those of a shorter time do. -/
theorem Code.engine_le (code : Code) {time time' : Nat} (h : time ≤ time') :
    (code.engine time).Le (code.engine time') := by
  refine ⟨rfl, fun f vs => ?_, h⟩
  change (code.callValue time f vs).Le (code.callValue time' f vs)
  -- the calls that a call makes have a unit of time less on both sides
  induction time generalizing time' f vs with
  | zero => exact .of_exhausted _
  | succ time ih =>
      obtain ⟨time', rfl⟩ : ∃ j, time' = j + 1 := ⟨time' - 1, by omega⟩
      have hle : time ≤ time' := Nat.le_of_succ_le_succ h
      have hengine : (code.engine time).Le (code.engine time') :=
        ⟨rfl, fun f vs => ih hle f vs, hle⟩
      rw [callValue, callValue]
      refine .bind (.refl _) fun c => ?_
      cases c with
      | function name => exact code.callOn_le hengine name vs
      | builtin b => exact .refl _
      | closure i ps body env => exact activate_le hengine (closureCells env) ps body vs

/-- **More time changes nothing** about a call that has ended. -/
theorem Session.call_of_le {time time' : Nat} (h : time ≤ time') {s : Session} {name : String}
    {args : List Datum} (hend : s.call time name args ≠ .exhausted) :
    s.call time' name args = s.call time name args :=
  Run.Le.bind (.refl (Datum.loadList args)) (fun vs => s.code.callOn_le (s.code.engine_le h) name vs) _
    hend

end Rivulet.Machine
