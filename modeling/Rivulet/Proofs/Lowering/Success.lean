import Rivulet.Proofs.Code.MapFacts
import Rivulet.Proofs.Lowering.Steps

set_option autoImplicit false

/-! # Lowering succeeds where maps are ready

The only thing that lowering can miss is at a map: its facts, or the element type of its result or of
its sequence. So it succeeds on code whose maps are all ready. -/

namespace Rivulet.Ir

namespace Lowering

/-- A step succeeds from every state. -/
def Succeeds {α : Type} (x : Lower α) : Prop := ∀ st : State, ∃ a st', Lowers x st a st'

namespace Succeeds

variable {α β : Type} {x : Lower α} {f : α → Lower β}

theorem pure (a : α) : Succeeds (pure a) := fun st => ⟨a, st, rfl⟩

theorem bind (hx : Succeeds x) (hf : ∀ a, Succeeds (f a)) : Succeeds (x >>= f) := by
  intro st
  obtain ⟨a, st₁, ha⟩ := hx st
  obtain ⟨b, st₂, hb⟩ := hf a st₁
  exact ⟨b, st₂, ha.bind hb⟩

theorem lift {r : Except Breach α} {a : α} (h : r = .ok a) : Succeeds (liftM r) := by
  rw [h]
  exact fun st => ⟨a, st, rfl⟩

end Succeeds

/-! ## Small pieces of code -/

theorem succeeds_freshTemp (hint : String) (t : Ty) : Succeeds (freshTemp hint t) :=
  fun _ => ⟨_, _, rfl⟩

theorem succeeds_bindTemp (hint : String) (e : Expr) : Succeeds (bindTemp hint e) :=
  .bind (succeeds_freshTemp hint e.ty) fun _ => .pure _

theorem succeeds_spillBefore (later : List Stmt) (e : Expr) : Succeeds (spillBefore later e) := by
  unfold spillBefore spill
  split
  · exact .pure _
  · refine .bind (fun st => ⟨st, st, rfl⟩) fun st => ?_
    split
    · exact .pure _
    · exact .bind (succeeds_bindTemp _ e) fun _ => .pure _

theorem succeeds_spillAllBefore (later : List Stmt) (es : List Expr) :
    Succeeds (spillAllBefore later es) := by
  induction es with
  | nil => exact .pure _
  | cons e es ih => exact .bind (succeeds_spillBefore later e) fun _ => .bind ih fun _ => .pure _

theorem succeeds_shortCircuit (op : BinaryOp) (l : Expr) (h : List Stmt) (r : Expr) :
    Succeeds (shortCircuit op l h r) :=
  .bind (succeeds_freshTemp _ _) fun _ => .pure _

theorem succeeds_mapLoop (site : Site) (t u : Ty) (i : Info) (seq fn : Expr) :
    Succeeds (mapLoop site t u i seq fn) :=
  .bind (succeeds_bindTemp _ _) fun _ =>
    .bind (succeeds_bindTemp _ _) fun _ =>
      .bind (succeeds_freshTemp _ _) fun _ =>
        .bind (fun _ => ⟨_, _, rfl⟩) fun _ => .pure _

/-- What lowering needs at a map. -/
theorem mapParts_of_ready {s : Expr} {facts : Option MapFacts} {i : Info}
    (hfacts : facts.isSome) (hi : ∃ t, i.ty = .slice t) (hs : ∃ t, s.ty = .slice t) :
    ∃ parts, mapParts s facts i = .ok parts := by
  obtain ⟨f, rfl⟩ := Option.isSome_iff_exists.1 hfacts
  obtain ⟨t, ht⟩ := hi
  obtain ⟨u, hu⟩ := hs
  exact ⟨(f, t, u), mapParts_ok_iff.2 ⟨rfl, ht, hu⟩⟩

/-! ## The recursion -/

mutual

theorem succeeds_expr : ∀ {e : Expr}, e.MapsReady → Succeeds (expr e)
  | .const _ _, _ | .local _ _, _ | .function _ _, _ | .builtin _ _, _ => .pure _
  | .unary _ _ _, h | .len _ _, h | .alloc _ _ _ _, h => .bind (succeeds_expr h) fun _ => .pure _
  | .binary op l r t facts i, h => by
      obtain ⟨hl, hr, hmap⟩ := h
      unfold expr
      split
      · rename_i hop
        obtain ⟨hfacts, hi, hs⟩ := hmap hop
        obtain ⟨parts, hparts⟩ := mapParts_of_ready hfacts hi hs
        exact .bind (.lift hparts) fun _ => .bind (succeeds_expr hl) fun _ =>
          .bind (succeeds_bindTemp _ _) fun _ => .bind (succeeds_expr hr) fun _ =>
            .bind (succeeds_bindTemp _ _) fun _ => .bind (succeeds_mapLoop _ _ _ _ _ _) fun _ => .pure _
      · refine .bind (succeeds_expr hl) fun p => .bind (succeeds_expr hr) fun q => ?_
        dsimp only
        split
        · split
          · exact .pure _
          · exact .bind (succeeds_shortCircuit _ _ _ _) fun _ => .pure _
        · exact .bind (succeeds_spillBefore _ _) fun _ => .pure _
  | .call f as i, h => by
      unfold expr
      refine .bind (succeeds_expr h.1) fun p => .bind (succeeds_exprs h.2) fun q => ?_
      dsimp only
      split <;> exact .pure _
  | .index _ _ _ _, h =>
      .bind (succeeds_expr h.1) fun _ => .bind (succeeds_expr h.2) fun _ =>
        .bind (succeeds_spillBefore _ _) fun _ => .pure _
  | .slice _ _ _, h => .bind (succeeds_exprs h) fun _ => .pure _
  | .closure _ _ _ _ _, h => .bind (succeeds_block h) fun _ => .pure _

theorem succeeds_exprs :
    ∀ {es done : List Expr}, Expr.AllMapsReady es → Succeeds (exprs done es)
  | [], _, _ => .pure _
  | _ :: _, _, h =>
      .bind (succeeds_expr h.1) fun _ => .bind (succeeds_spillAllBefore _ _) fun _ =>
        .bind (succeeds_exprs h.2) fun _ => .pure _

theorem succeeds_stmt : ∀ {s : Stmt}, s.MapsReady → Succeeds (stmt s)
  | .bind _ _, h | .assign _ _, h | .expr _, h => .bind (succeeds_expr h) fun _ => .pure _
  | .store _ _ _ _, h =>
      .bind (succeeds_expr h.1) fun _ => .bind (succeeds_expr h.2.1) fun _ =>
        .bind (succeeds_spillBefore _ _) fun _ => .bind (succeeds_expr h.2.2) fun _ =>
          .bind (succeeds_spillBefore _ _) fun _ => .bind (succeeds_spillBefore _ _) fun _ => .pure _
  | .return _, h => .bind (succeeds_exprs h) fun _ => .pure _
  | .if _ _ _, h =>
      .bind (succeeds_expr h.1) fun _ => .bind (succeeds_block h.2.1) fun _ =>
        .bind (succeeds_block h.2.2) fun _ => .pure _
  | .while _ _, h => .bind (succeeds_expr h.1) fun _ => .bind (succeeds_block h.2) fun _ => .pure _
  | .break, _ => .pure _
  | .for _ _ _ _, h =>
      .bind (succeeds_expr h.1) fun _ => .bind (succeeds_expr h.2.1) fun _ =>
        .bind (succeeds_spillBefore _ _) fun _ => .bind (succeeds_block h.2.2) fun _ => .pure _

theorem succeeds_block : ∀ {ss : List Stmt}, Stmt.AllMapsReady ss → Succeeds (block ss)
  | [], _ => .pure _
  | _ :: _, h => .bind (succeeds_stmt h.1) fun _ => .bind (succeeds_block h.2) fun _ => .pure _

end

theorem functions_of_mapsReady : ∀ {fs : List Function},
    (∀ f ∈ fs, Stmt.AllMapsReady f.body) → ∃ n fs', functions Function.lower fs = (.ok n, fs')
  | [], _ => ⟨0, [], rfl⟩
  | f :: fs, h => by
      obtain ⟨b, st, hb⟩ := succeeds_block (h f (by simp)) ⟨f.ctx, 0⟩
      obtain ⟨n, fs', hfs⟩ := functions_of_mapsReady fun g hg => h g (List.mem_cons_of_mem _ hg)
      have hf : f.lower = (.ok st.lowered, { f with body := b, ctx := st.ctx }) := by
        unfold Function.lower
        rw [show (block f.body).run.run ⟨f.ctx, 0⟩ = (.ok b, st) from hb]
      exact ⟨st.lowered + n, _, by simp only [functions, hf, hfs]; rfl⟩

end Lowering

/-- **Lowering succeeds on a module whose maps are all ready.** -/
theorem Module.lower_of_mapsReady {m : Module} (h : m.MapsReady) : ∃ n m', m.lower = (.ok n, m') := by
  obtain ⟨n, fs, hfs⟩ := Lowering.functions_of_mapsReady h
  exact ⟨n, ⟨fs⟩, by simp only [Module.lower, hfs]⟩

end Rivulet.Ir
