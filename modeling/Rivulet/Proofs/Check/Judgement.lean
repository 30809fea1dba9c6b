import Rivulet.Check.Program
import Rivulet.Proofs.Typing.Proper

set_option autoImplicit false

/-! # Well-typed trees

What it means for a typed tree to be right, said rule by rule and without the checker. A tree is
judged relative to the functions of the program, to the locals in scope with their types, and to the
names that are *alive*, that is, bound to a value when the tree is run. Inside of a closure the whole
surroundings are in scope, but only parameters and captured names are alive; the rule of a local asks
for both.

`CapturesIn` is a condition apart: every name in the capture list of a closure is in scope. The
checker does not look at capture lists, so a tree can be well typed without it.

The checker gives well-typed trees (`Proofs/Check/Soundness`), and code can be made of exactly those
well-typed trees whose captures are in scope (`Proofs/Code/Generation`). -/

namespace Rivulet.Typed

/-- Names in scope with their types, the innermost first. -/
abbrev Scope := List (String × Ty)

/-- The functions of a program. -/
abbrev Functions := List (String × Check.Signature)

/-- A parameter as a name in scope. -/
def Param.entry (p : Param) : String × Ty := (p.name, p.ty)

/-- A scope with parameters in it; of two parameters of one name the later hides the earlier. -/
def Scope.withParams (ps : List Param) (sc : Scope) : Scope := (ps.map Param.entry).reverse ++ sc

/-- The names in scope. -/
def Scope.names (sc : Scope) : List String := sc.map Prod.fst

/-- What a statement brings into scope for the statements after it. -/
def Stmt.declared : Stmt → Scope
  | .declare _ x t _ _ => [(x, t)]
  | _ => []

/-- The rule of a binary operator. -/
def OperatorTy (op : BinaryOp) (l r t : Ty) : Prop :=
  (op.rule = .map ∧ ∃ e u, l = .seq e ∧ r = .func [e] [u] ∧ t = .seq u) ∨
    (op.rule ≠ .map ∧ l = r ∧ Typing.homogeneous? op.rule l = some t)

/-! ## The rules -/

mutual

/-- An expression is well typed. -/
def Expr.WellTyped (fs : Functions) (sc : Scope) (alive : List String) : Expr → Prop
  | .int _ i => i.ty = .int
  | .bool _ i => i.ty = .bool
  | .str _ i => i.ty = .str
  | .local x i => x ∈ alive ∧ sc.lookup x = some i.ty
  | .function f i => ∃ sig, fs.lookup f = some sig ∧ i.ty = .func sig.params sig.results
  | .builtin b i => b = .str ∧ i.ty = .func [.int] [.str]
  | .unary op e i =>
      e.WellTyped fs sc alive ∧ e.ty = Check.unaryType op ∧ i.ty = Check.unaryType op
  | .binary op l r i =>
      l.WellTyped fs sc alive ∧ r.WellTyped fs sc alive ∧ OperatorTy op l.ty r.ty i.ty
  | .seq es i =>
      Expr.WellTypedList fs sc alive es ∧
        ∃ t, t.proper = true ∧ i.ty = .seq t ∧ ∀ e ∈ es, e.ty = t
  | .index e p i =>
      e.WellTyped fs sc alive ∧ p.WellTyped fs sc alive ∧ e.ty = .seq i.ty ∧ p.ty = .int
  | .call f as i =>
      Expr.WellTypedList fs sc alive as ∧
        ((∃ j a t, f = .builtin .len j ∧ as = [a] ∧ a.ty = .seq t ∧ i.ty = .int) ∨
          (∃ j, f = .builtin .println j ∧ as.length = 1 ∧ j.ty = .func (as.map Expr.ty) [] ∧
            i.ty = .unit) ∨
          (f.WellTyped fs sc alive ∧
            ∃ rs, f.ty = .func (as.map Expr.ty) rs ∧ i.ty = .ofResults rs))
  | .closure ps rs b cs i =>
      Ty.allProper (ps.map Param.ty) = true ∧ Ty.allSimple rs = true ∧
        (∀ x ∈ cs, x ∈ sc.names → x ∈ alive) ∧
        Stmt.WellTypedBlock fs rs (sc.withParams ps) (ps.map Param.name ++ cs) b ∧
        (rs ≠ [] → Stmt.anyReturns b = true) ∧ i.ty = .func (ps.map Param.ty) rs
  | .error _ => False
termination_by structural e => e

/-- Every expression of a list is well typed. -/
def Expr.WellTypedList (fs : Functions) (sc : Scope) (alive : List String) : List Expr → Prop
  | [] => True
  | e :: es => e.WellTyped fs sc alive ∧ Expr.WellTypedList fs sc alive es
termination_by structural es => es

/-- A statement is well typed, in a function or closure with the results `rs`. -/
def Stmt.WellTyped (fs : Functions) (rs : List Ty) (sc : Scope) (alive : List String) :
    Stmt → Prop
  | .declare _ _ t e _ => e.WellTyped fs sc alive ∧ e.ty = t
  | .assign x e _ => e.WellTyped fs sc alive ∧ x ∈ alive ∧ sc.lookup x = some e.ty
  | .if c t e _ =>
      c.WellTyped fs sc alive ∧ c.ty = .bool ∧ Stmt.WellTypedBlock fs rs sc alive t ∧
        Stmt.WellTypedBlock fs rs sc alive e
  | .while c b _ => c.WellTyped fs sc alive ∧ c.ty = .bool ∧ Stmt.WellTypedBlock fs rs sc alive b
  | .return es _ => Expr.WellTypedList fs sc alive es ∧ Check.returned rs es = rs
  | .expr e _ => e.WellTyped fs sc alive
termination_by structural s => s

/-- A block is well typed. -/
def Stmt.WellTypedBlock (fs : Functions) (rs : List Ty) (sc : Scope) (alive : List String) :
    List Stmt → Prop
  | [] => True
  | s :: ss =>
      s.WellTyped fs rs sc alive ∧
        Stmt.WellTypedBlock fs rs (s.declared ++ sc) (s.declared.map Prod.fst ++ alive) ss
termination_by structural ss => ss

end

/-! ## Captures in scope -/

mutual

/-- Every capture of a closure in an expression is in scope, given the names around it. -/
def Expr.CapturesIn (names : List String) : Expr → Prop
  | .int _ _ | .bool _ _ | .str _ _ | .local _ _ | .function _ _ | .builtin _ _ | .error _ => True
  | .unary _ e _ => e.CapturesIn names
  | .binary _ l r _ => l.CapturesIn names ∧ r.CapturesIn names
  | .seq es _ => Expr.CapturesInList names es
  | .index e p _ => e.CapturesIn names ∧ p.CapturesIn names
  | .call f as _ => f.CapturesIn names ∧ Expr.CapturesInList names as
  | .closure ps _ b cs _ => cs ⊆ names ∧ Stmt.CapturesInBlock (ps.map Param.name ++ names) b
termination_by structural e => e

/-- Every capture of a closure in several expressions is in scope. -/
def Expr.CapturesInList (names : List String) : List Expr → Prop
  | [] => True
  | e :: es => e.CapturesIn names ∧ Expr.CapturesInList names es
termination_by structural es => es

/-- Every capture of a closure in a statement is in scope. -/
def Stmt.CapturesIn (names : List String) : Stmt → Prop
  | .declare _ _ _ e _ | .assign _ e _ | .expr e _ => e.CapturesIn names
  | .if c t e _ =>
      c.CapturesIn names ∧ Stmt.CapturesInBlock names t ∧ Stmt.CapturesInBlock names e
  | .while c b _ => c.CapturesIn names ∧ Stmt.CapturesInBlock names b
  | .return es _ => Expr.CapturesInList names es
termination_by structural s => s

/-- Every capture of a closure in a block is in scope. -/
def Stmt.CapturesInBlock (names : List String) : List Stmt → Prop
  | [] => True
  | s :: ss =>
      s.CapturesIn names ∧ Stmt.CapturesInBlock (s.declared.map Prod.fst ++ names) ss
termination_by structural ss => ss

end

/-! ## Functions and programs -/

/-- The types in scope are proper. -/
def Scope.Proper (sc : Scope) : Prop := ∀ p ∈ sc, p.2.proper = true

/-- The types of all functions are proper, and their results are simple. -/
def Functions.Proper (fs : Functions) : Prop :=
  ∀ p ∈ fs, Ty.allProper p.2.params = true ∧ Ty.allSimple p.2.results = true

/-- A function is well typed. -/
structure Function.WellTyped (fs : Functions) (f : Function) : Prop where
  params_proper : Ty.allProper (f.params.map Param.ty) = true
  results_simple : Ty.allSimple f.results = true
  body : Stmt.WellTypedBlock fs f.results (Scope.withParams f.params [])
    (f.params.map Param.name) f.body
  returns : f.results ≠ [] → Stmt.anyReturns f.body = true

/-- The captures of all closures of a function are in scope. -/
def Function.CapturesIn (f : Function) : Prop :=
  Stmt.CapturesInBlock (f.params.map Param.name) f.body

/-- The functions of a typed program; of two definitions of one name the later stands first. -/
def Program.functionTypes (p : Program) : Functions :=
  (p.functions.map fun f => (f.name, ⟨f.params.map Param.ty, f.results⟩)).reverse

/-- A program is well typed, with the functions `fs`. -/
structure Program.WellTyped (fs : Functions) (p : Program) : Prop where
  proper : fs.Proper
  signature : ∀ f, fs.lookup f = p.functionTypes.lookup f
  functions : ∀ f ∈ p.functions, f.WellTyped fs

/-! ## Types are proper -/

theorem Scope.names_withParams (ps : List Param) (sc : Scope) :
    (sc.withParams ps).names = (ps.map Param.name).reverse ++ sc.names := by
  simp [Scope.names, Scope.withParams, Function.comp_def, Param.entry]

theorem Scope.Proper.withParams {sc : Scope} (h : sc.Proper) {ps : List Param}
    (hps : Ty.allProper (ps.map Param.ty) = true) : (sc.withParams ps).Proper := by
  intro p hp
  rw [Ty.allProper_iff] at hps
  rcases List.mem_append.1 hp with hp | hp
  · obtain ⟨q, hq, rfl⟩ := List.mem_map.1 (List.mem_reverse.1 hp)
    exact hps q.ty (List.mem_map_of_mem hq)
  · exact h p hp

theorem Scope.Proper.lookup {sc : Scope} (h : sc.Proper) {x : String} {t : Ty}
    (hx : sc.lookup x = some t) : t.proper = true := by
  obtain ⟨l₁, l₂, rfl, -⟩ := List.lookup_eq_some_iff.1 hx
  exact h (x, t) (by simp)

theorem Functions.Proper.lookup {fs : Functions} (h : fs.Proper) {f : String}
    {sig : Check.Signature} (hf : fs.lookup f = some sig) :
    Ty.allProper sig.params = true ∧ Ty.allSimple sig.results = true := by
  obtain ⟨l₁, l₂, rfl, -⟩ := List.lookup_eq_some_iff.1 hf
  exact h (f, sig) (by simp)

theorem Expr.wellTypedList_iff {fs : Functions} {sc : Scope} {alive : List String}
    (es : List Expr) :
    Expr.WellTypedList fs sc alive es ↔ ∀ e ∈ es, e.WellTyped fs sc alive := by
  induction es with
  | nil => simp [Expr.WellTypedList]
  | cons e es ih => simp [Expr.WellTypedList, ih]

theorem OperatorTy.proper {op : BinaryOp} {l r t : Ty} (h : OperatorTy op l r t)
    (hr : r.proper = true) : t.proper = true := by
  rcases h with ⟨-, e, u, -, rfl, rfl⟩ | ⟨-, -, hh⟩
  · simp only [Ty.proper, Ty.allSimple, Bool.and_eq_true] at hr ⊢
    exact hr.2.1.1
  · exact Typing.homogeneous?_proper hh

/-- The type of a well-typed expression is proper. -/
theorem Expr.WellTyped.proper {fs : Functions} (hfs : fs.Proper) {sc : Scope} (hsc : sc.Proper)
    {alive : List String} :
    ∀ {e : Expr}, e.WellTyped fs sc alive → e.ty.proper = true
  | .int _ i, h | .bool _ i, h | .str _ i, h => by
      simp only [Expr.WellTyped] at h
      simp only [Expr.ty, Expr.info, h]
      rfl
  | .local x i, h => hsc.lookup h.2
  | .function f i, h => by
      obtain ⟨sig, hf, hi⟩ := h
      have := hfs.lookup hf
      simp only [Expr.ty, Expr.info, hi, Ty.proper, this.1, this.2, Bool.and_self]
  | .builtin b i, h => by
      simp only [Expr.ty, Expr.info, h.2]
      rfl
  | .unary op e i, h => by
      simp only [Expr.ty, Expr.info, h.2.2]
      cases op <;> rfl
  | .binary op l r i, h => h.2.2.proper (Expr.WellTyped.proper hfs hsc h.2.1)
  | .seq es i, h => by
      obtain ⟨-, t, ht, hi, -⟩ := h
      simp only [Expr.ty, Expr.info, hi, Ty.proper, ht]
  | .index e p i, h => by
      have he := Expr.WellTyped.proper hfs hsc h.1
      rw [h.2.2.1] at he
      exact he
  | .call f as i, h => by
      rcases h.2 with ⟨j, a, t, -, -, -, hi⟩ | ⟨j, -, -, -, hi⟩ | ⟨hf, rs, hty, hi⟩
      · simp only [Expr.ty, Expr.info, hi]
        rfl
      · simp only [Expr.ty, Expr.info, hi]
        rfl
      · have hp := Expr.WellTyped.proper hfs hsc hf
        rw [hty] at hp
        simp only [Ty.proper, Bool.and_eq_true] at hp
        simp only [Expr.ty, Expr.info, hi]
        exact Ty.proper_ofResults hp.2
  | .closure ps rs b cs i, h => by
      simp only [Expr.WellTyped] at h
      simp only [Expr.ty, Expr.info, h.2.2.2.2.2, Ty.proper, h.1, h.2.1, Bool.and_self]

/-- What a well-typed statement declares is of a proper type. -/
theorem Stmt.WellTyped.declared_proper {fs : Functions} (hfs : fs.Proper) {rs : List Ty}
    {sc : Scope} (hsc : sc.Proper) {alive : List String} {s : Stmt}
    (h : s.WellTyped fs rs sc alive) : Scope.Proper (s.declared ++ sc) := by
  cases s with
  | declare k x t e s =>
      rintro p (_ | ⟨_, hp⟩)
      · rw [← h.2]
        exact h.1.proper hfs hsc
      · exact hsc p hp
  | _ => exact hsc

/-! ## Captures depend on the set of names only -/

mutual

theorem Expr.CapturesIn.congr :
    ∀ {e : Expr} {names names' : List String}, e.CapturesIn names →
      (∀ x, x ∈ names ↔ x ∈ names') → e.CapturesIn names'
  | .int _ _, _, _, _, _ | .bool _ _, _, _, _, _ | .str _ _, _, _, _, _ | .local _ _, _, _, _, _
  | .function _ _, _, _, _, _ | .builtin _ _, _, _, _, _ | .error _, _, _, _, _ => trivial
  | .unary _ e _, _, _, h, hn => Expr.CapturesIn.congr (e := e) h hn
  | .binary _ _ _ _, _, _, h, hn => ⟨h.1.congr hn, h.2.congr hn⟩
  | .seq es _, names, _, h, hn =>
      Expr.CapturesInList.congr (show Expr.CapturesInList names es from h) hn
  | .index _ _ _, _, _, h, hn => ⟨h.1.congr hn, h.2.congr hn⟩
  | .call _ _ _, _, _, h, hn => ⟨h.1.congr hn, h.2.congr hn⟩
  | .closure ps _ b cs _, _, _, h, hn =>
      ⟨fun x hx => (hn x).1 (h.1 hx), h.2.congr fun x => by simp [hn x]⟩

theorem Expr.CapturesInList.congr :
    ∀ {es : List Expr} {names names' : List String}, Expr.CapturesInList names es →
      (∀ x, x ∈ names ↔ x ∈ names') → Expr.CapturesInList names' es
  | [], _, _, _, _ => trivial
  | _ :: _, _, _, h, hn => ⟨h.1.congr hn, h.2.congr hn⟩

theorem Stmt.CapturesIn.congr :
    ∀ {s : Stmt} {names names' : List String}, s.CapturesIn names →
      (∀ x, x ∈ names ↔ x ∈ names') → s.CapturesIn names'
  | .declare _ _ _ e _, _, _, h, hn | .assign _ e _, _, _, h, hn | .expr e _, _, _, h, hn =>
      Expr.CapturesIn.congr (e := e) h hn
  | .if _ _ _ _, _, _, h, hn => ⟨h.1.congr hn, h.2.1.congr hn, h.2.2.congr hn⟩
  | .while _ _ _, _, _, h, hn => ⟨h.1.congr hn, h.2.congr hn⟩
  | .return es _, names, _, h, hn =>
      Expr.CapturesInList.congr (show Expr.CapturesInList names es from h) hn

theorem Stmt.CapturesInBlock.congr :
    ∀ {ss : List Stmt} {names names' : List String}, Stmt.CapturesInBlock names ss →
      (∀ x, x ∈ names ↔ x ∈ names') → Stmt.CapturesInBlock names' ss
  | [], _, _, _, _ => trivial
  | _ :: _, _, _, h, hn => ⟨h.1.congr hn, h.2.congr fun x => by simp [hn x]⟩

end

end Rivulet.Typed
