import Rivulet.Proofs.Source.Printer
import Rivulet.Source.Parser

set_option autoImplicit false

/-! # Reading written types and parameters back

What the grammar makes of types, result lists and parameters in their written form. A rule reads a
tree if it may be nested as deep as the tree has tokens: every rule inside of another one stands
behind a token, and a semicolon makes up for an expression at the front of a statement.

Refusals by the first token come from `Rule.outlook`, whatever the depth. -/

namespace Rivulet.Source

open Grammar Gram Printer

variable {α β : Type} {n : Nat} {i k m : List Token}

/-! ## Rules -/

/-- A rule reads what its grammar reads one level deeper. -/
theorem reads_rule {r : Rule α} {P : α → Prop} (h : Reads (@Rule.parser n) r.body i k P) :
    Reads (@Rule.parser (n + 1)) (.rule r) i k P := h

/-- At depth zero, a rule refuses everything. -/
theorem refuses_zero (r : Rule α) : Refuses (@Rule.parser 0) (.rule r) i :=
  fun c _ => ⟨c.failure [], rfl⟩

/-- A rule refuses what its grammar refuses at every depth. -/
theorem refuses_rule {r : Rule α} (h : ∀ n, Refuses (@Rule.parser n) r.body i) :
    Refuses (@Rule.parser n) (.rule r) i := by
  cases n with
  | zero => exact refuses_zero r
  | succ n => exact h n

/-- What can be said about a rule in front of the token `t`. A statement may start with an
expression, so its answer needs that of the others and is given by `G.stmt` itself. -/
def Rule.outlook (t : Option Token) : {α : Type} → Rule α → Outlook
  | _, .type =>
      if G.type.outlook (fun _ => .unknown) t = .refuses then .refuses else .unknown
  | _, .expr =>
      if G.expr.outlook (fun _ => .unknown) t = .refuses then .refuses else .unknown
  | _, .stmt => .unknown

theorem Rule.refuses_of_outlook (r : Rule α) (h : r.outlook i.head? = .refuses) :
    Refuses (@Rule.parser n) (.rule r) i := by
  have hbody : ∀ {β : Type} (g : G β), g.outlook (fun _ => .unknown) i.head? = .refuses →
      ∀ n, Refuses (@Rule.parser n) g i := fun g hg n =>
    (outlook_sound (fun _ => .unknown) (by simp) (by simp) g).1 hg
  cases r with
  | type =>
      simp only [Rule.outlook] at h
      split at h
      · rename_i hg
        exact refuses_rule (hbody _ hg)
      · cases h
  | expr =>
      simp only [Rule.outlook] at h
      split at h
      · rename_i hg
        exact refuses_rule (hbody _ hg)
      · cases h
  | stmt => cases h

theorem Rule.outlook_ne_skips (t : Option Token) (r : Rule α) : r.outlook t ≠ .skips := by
  cases r <;> simp only [Rule.outlook] <;> (try split) <;> simp

/-- A grammar refuses a token that nothing it reads starts with. -/
theorem refuses_of_outlook {t : Token} (g : G α)
    (h : g.outlook (Rule.outlook (some t)) (some t) = .refuses) (k : List Token) :
    Refuses (@Rule.parser n) g (t :: k) :=
  (outlook_sound (Rule.outlook (some t)) (fun r hr => Rule.refuses_of_outlook (i := t :: k) r hr)
    (fun r hr => absurd hr (r.outlook_ne_skips _)) g).1 h

/-! ## Tokens and brackets -/

theorem reads_mark (t : Mark) (k : List Token) :
    Reads (@Rule.parser n) (G.mark t) (.mark t :: k) k fun _ => True := .token _ k

theorem reads_word (w : Keyword) (k : List Token) :
    Reads (@Rule.parser n) (G.word w) (.keyword w :: k) k fun _ => True := .token _ k

theorem reads_ident (x : String) (k : List Token) :
    Reads (@Rule.parser n) G.ident (.ident x :: k) k (· = x) := by
  apply Reads.pick
  rfl

theorem refuses_mark {t : Mark} (h : i.head? ≠ some (.mark t)) :
    Refuses (@Rule.parser n) (G.mark t) i := .token h

theorem reads_parens {a : G α} {P : α → Prop}
    (h : Reads (@Rule.parser n) a i (.mark .rparen :: k) P) :
    Reads (@Rule.parser n) (G.parens a) (.mark .lparen :: i) k P :=
  ((reads_mark .lparen i).right h).left (reads_mark .rparen k)

/-- Something in parentheses is refused if nothing is read inside and something stands there. -/
theorem refuses_parens {a : G α} {P : α → Prop} (h : Reads (@Rule.parser n) a i m P)
    (hm : m.head? ≠ some (.mark .rparen)) :
    Refuses (@Rule.parser n) (G.parens a) (.mark .lparen :: i) :=
  .map (.seq_right ((reads_mark .lparen i).right h) (refuses_mark hm))

theorem reads_brackets {a : G α} {P : α → Prop}
    (h : Reads (@Rule.parser n) a i (.mark .rbracket :: k) P) :
    Reads (@Rule.parser n) (G.brackets a) (.mark .lbracket :: i) k P :=
  ((reads_mark .lbracket i).right h).left (reads_mark .rbracket k)

/-! ## Lists with commas -/

theorem commas_append {x y : List Token} (xs ys : List (List Token)) :
    commas (x :: xs ++ y :: ys) = commas (x :: xs) ++ .mark .comma :: commas (y :: ys) := by
  simp only [commas, List.cons_append, intercalate_cons, List.flatMap_append, List.flatMap_cons,
    List.append_assoc]

theorem length_le_commas {x : List Token} {xs : List (List Token)} (h : x ∈ xs) :
    x.length ≤ (commas xs).length := by
  obtain ⟨ys, zs, rfl⟩ := List.append_of_mem h
  cases ys with
  | nil => simp [commas, intercalate_cons]
  | cons y ys =>
      rw [commas_append]
      simp only [commas, intercalate_cons, List.length_append, List.length_cons]
      omega

theorem length_le_arrow {x : List Token} {xs : List (List Token)} (h : x ∈ xs) :
    x.length ≤ (arrow xs).length := by
  have hcommas := length_le_commas h
  match xs with
  | [] => cases h
  | [y] =>
      obtain rfl := List.mem_singleton.1 h
      simp [arrow]
  | y :: z :: xs =>
      simp only [arrow, parens, List.length_cons, List.length_append]
      omega

/-- A list in parentheses is read item by item. -/
theorem reads_commas {ι δ : Type} {a : G α} (Follow : List Token → Prop) {print : ι → List Token}
    (view : α → δ) (seen : ι → δ) {items : List ι} {t : Mark} (ht : t ≠ .comma)
    (hitem : ∀ x ∈ items, ∀ k, Follow k →
      Reads (@Rule.parser n) a (print x ++ k) k fun y => view y = seen x)
    (hcomma : ∀ k, Follow (.mark .comma :: k)) (hend : Follow (.mark t :: k))
    (hstop : Refuses (@Rule.parser n) a (.mark t :: k)) :
    Reads (@Rule.parser n) (G.commas a) (commas (items.map print) ++ .mark t :: k) (.mark t :: k)
      fun ys => ys.map view = items.map seen :=
  .sepBy (by simpa using ht) hitem hcomma hend hstop

theorem reads_commas_nil {a : G α} (h : Refuses (@Rule.parser n) a k) :
    Reads (@Rule.parser n) (G.commas a) k k (· = []) := .sepBy_nil h

/-! ## Types -/

/-- What may follow a type: an arrow would be taken for the results of a function type. -/
def EndsType (k : List Token) : Prop := k.head? ≠ some (.mark .arrow)

theorem endsType_mark {t : Mark} (h : t ≠ .arrow) (k : List Token) : EndsType (.mark t :: k) := by
  simpa [EndsType] using h

/-- A type in its written form is read back by rules nested at most `n` deep. -/
def TypeExpr.ReadBack (n : Nat) (t : TypeExpr) : Prop :=
  ∀ k, EndsType k → Reads (@Rule.parser n) (.rule .type) (t.tokens ++ k) k (· = t)

theorem reads_types {ts : List TypeExpr} (hts : ∀ t ∈ ts, t.ReadBack n) (k : List Token) :
    Reads (@Rule.parser n) (G.commas (.rule .type))
      (commas (ts.map TypeExpr.tokens) ++ .mark .rparen :: k) (.mark .rparen :: k) (· = ts) := by
  have hread := reads_commas _ id id (by decide) hts (fun k => endsType_mark (by decide) k)
    (endsType_mark (by decide) k) (refuses_of_outlook (t := .mark .rparen) _ (by decide) k)
  exact hread.weaken fun ys h => by simpa using h

/-- A result list in its written form is read back. -/
theorem reads_arrowResults {ts : List TypeExpr} (hts : ∀ t ∈ ts, t.ReadBack n) (hk : EndsType k) :
    Reads (@Rule.parser n) G.arrowResults (arrow (ts.map TypeExpr.tokens) ++ k) k (· = ts) := by
  match ts with
  | [] =>
      have hnone : Reads (@Rule.parser n) (.optional (.right (G.mark .arrow) G.results)) k k
          (· = none) := .optional_none (Refuses.right (refuses_mark hk))
      exact .map (hnone.weaken fun _ h => by rw [h]; rfl)
  | [t] =>
      have hone : Reads (@Rule.parser n) G.results (t.tokens ++ k) k (· = [t]) :=
        .orElse_left (.map ((hts t (by simp) k hk).weaken fun _ h => by rw [h]))
      refine .map (((reads_mark .arrow _).right hone).optional_some.weaken ?_)
      rintro _ ⟨_, rfl, rfl⟩
      rfl
  | t :: u :: ts =>
      have hmany : Reads (@Rule.parser n) G.results
          (.mark .lparen :: (commas ((t :: u :: ts).map TypeExpr.tokens) ++ .mark .rparen :: k)) k
          (· = t :: u :: ts) :=
        .orElse_right (refuses_of_outlook _ (by decide) _)
          (reads_parens (reads_types hts k))
      have htokens : arrow ((t :: u :: ts).map TypeExpr.tokens) ++ k
          = .mark .arrow :: .mark .lparen ::
            (commas ((t :: u :: ts).map TypeExpr.tokens) ++ .mark .rparen :: k) := by
        simp [arrow, parens]
      rw [htokens]
      refine .map (((reads_mark .arrow _).right hmany).optional_some.weaken ?_)
      rintro _ ⟨_, rfl, rfl⟩
      rfl

theorem reads_arrowResults_braces {ts : List TypeExpr} (hts : ∀ t ∈ ts, t.ReadBack n)
    (b k : List Token) :
    Reads (@Rule.parser n) G.arrowResults (arrow (ts.map TypeExpr.tokens) ++ (braces b ++ k))
      (braces b ++ k) (· = ts) :=
  reads_arrowResults hts (by rw [braces_append]; exact endsType_mark (by decide) _)

theorem TypeName.readBack (t : TypeName) : (TypeExpr.named t).ReadBack (n + 1) := by
  intro k _
  have hpick : Reads (@Rule.parser n) G.typeName (.ident t.spelling :: k) k (· = .named t) :=
    .pick (by cases t <;> rfl) k
  exact reads_rule (.orElse_left (.orElse_left hpick))

theorem TypeExpr.ReadBack.seq {t : TypeExpr} (ht : t.ReadBack n) :
    (TypeExpr.seq t).ReadBack (n + 1) := by
  intro k _
  have htokens : (TypeExpr.seq t).tokens ++ k
      = .mark .lbracket :: (t.tokens ++ .mark .rbracket :: k) := by
    simp [TypeExpr.tokens, Printer.brackets]
  rw [htokens]
  have hinner := reads_brackets (ht _ (endsType_mark (by decide) k))
  exact reads_rule (.orElse_left (.orElse_right (refuses_of_outlook _ (by decide) _)
    (.map (hinner.weaken fun _ h => by rw [h]))))

theorem TypeExpr.ReadBack.func {ps rs : List TypeExpr} (hps : ∀ t ∈ ps, t.ReadBack n)
    (hrs : ∀ t ∈ rs, t.ReadBack n) : (TypeExpr.func ps rs).ReadBack (n + 1) := by
  intro k hk
  have htokens : (TypeExpr.func ps rs).tokens ++ k
      = .keyword .fn :: .mark .lparen :: (commas (ps.map TypeExpr.tokens) ++
        .mark .rparen :: (arrow (rs.map TypeExpr.tokens) ++ k)) := by
    simp [TypeExpr.tokens, parens]
  rw [htokens]
  have hparams := (reads_word .fn _).right
    (reads_parens (reads_types hps (arrow (rs.map TypeExpr.tokens) ++ k)))
  refine reads_rule (.orElse_right (refuses_of_outlook _ (by decide) _) (.map ?_))
  refine (hparams.seq (reads_arrowResults hrs hk)).weaken ?_
  rintro ⟨ps', rs'⟩ ⟨rfl, rfl⟩
  rfl

mutual

/-- A type in its written form is read back. -/
theorem TypeExpr.readBack : ∀ (t : TypeExpr) {n : Nat}, t.tokens.length ≤ n → t.ReadBack n
  | .named t, n + 1, _ => TypeName.readBack t
  | .named _, 0, h => by simp [TypeExpr.tokens] at h
  | .seq t, n + 1, h => by
      simp only [TypeExpr.tokens, Printer.brackets, List.length_cons, List.length_append] at h
      exact .seq (t.readBack (by omega))
  | .seq _, 0, h => by simp [TypeExpr.tokens, Printer.brackets] at h
  | .func ps rs, n + 1, h => by
      simp only [TypeExpr.tokens, parens, TypeExpr.tokensEach_eq, List.length_cons,
        List.length_append] at h
      refine .func (fun t ht => TypeExpr.readBack_of_mem ps t ht ?_)
        (fun t ht => TypeExpr.readBack_of_mem rs t ht ?_)
      · have := length_le_commas (List.mem_map_of_mem (f := TypeExpr.tokens) ht)
        omega
      · have := length_le_arrow (List.mem_map_of_mem (f := TypeExpr.tokens) ht)
        omega
  | .func _ _, 0, h => by simp [TypeExpr.tokens] at h
termination_by structural t => t

theorem TypeExpr.readBack_of_mem :
    ∀ (ts : List TypeExpr) (t : TypeExpr), t ∈ ts → ∀ {n : Nat}, t.tokens.length ≤ n → t.ReadBack n
  | u :: ts, t, ht, n, hn => by
      rcases List.mem_cons.1 ht with heq | ht
      · rw [heq] at hn ⊢
        exact u.readBack hn
      · exact TypeExpr.readBack_of_mem ts t ht hn
termination_by structural ts => ts

end

/-! ## Parameters -/

theorem Param.reads {p : Param} (hp : p.ty.ReadBack n) (hk : EndsType k) :
    Reads (@Rule.parser n) G.param (p.tokens ++ k) k fun q => q.bare = p.bare := by
  have hname := (reads_ident (n := n) p.name _).left (reads_mark .colon (p.ty.tokens ++ k))
  refine .located ((hname.seq (hp k hk)).weaken ?_)
  rintro ⟨x, t⟩ ⟨rfl, rfl⟩ s
  rfl

theorem OpenParam.reads {p : OpenParam} (hp : ∀ t ∈ p.ty, t.ReadBack n) (hk : EndsType k)
    (hcolon : k.head? ≠ some (.mark .colon)) :
    Reads (@Rule.parser n) G.openParam (p.tokens ++ k) k fun q => q.bare = p.bare := by
  obtain ⟨x, t, s⟩ := p
  cases t with
  | none =>
      have htype : Reads (@Rule.parser n) (.optional (.right (G.mark .colon) (.rule .type))) k k
          (· = none) := .optional_none (Refuses.right (refuses_mark hcolon))
      refine .located (((reads_ident x k).seq htype).weaken ?_)
      rintro ⟨x, t⟩ ⟨rfl, rfl⟩ s
      rfl
  | some t =>
      have htype := ((reads_mark .colon _).right (hp t rfl k hk)).optional_some
      refine .located (((reads_ident x _).seq htype).weaken ?_)
      rintro ⟨x, t⟩ ⟨rfl, t, rfl, rfl⟩ s
      rfl

/-- A parameter list in its written form is read back. -/
theorem reads_params {ps : List Param} (hps : ∀ p ∈ ps, p.ty.ReadBack n) (k : List Token) :
    Reads (@Rule.parser n) (G.parens (G.commas G.param))
      (.mark .lparen :: (commas (ps.map Param.tokens) ++ .mark .rparen :: k)) k
      fun qs => qs.map Param.bare = ps.map Param.bare :=
  reads_parens (reads_commas _ _ _ (by decide) (fun p hp k hk => Param.reads (hps p hp) hk)
    (fun k => endsType_mark (by decide) k) (endsType_mark (by decide) k)
    (refuses_of_outlook _ (by decide) k))

/-- A list of parameters whose types may be left out is read back from its written form. -/
theorem reads_openParams {ps : List OpenParam} (hps : ∀ p ∈ ps, ∀ t ∈ p.ty, t.ReadBack n)
    (k : List Token) :
    Reads (@Rule.parser n) (G.parens (G.commas G.openParam))
      (.mark .lparen :: (commas (ps.map OpenParam.tokens) ++ .mark .rparen :: k)) k
      fun qs => qs.map OpenParam.bare = ps.map OpenParam.bare := by
  refine reads_parens (reads_commas (fun k => EndsType k ∧ k.head? ≠ some (.mark .colon)) _ _
    (by decide) (fun p hp k hk => OpenParam.reads (hps p hp) hk.1 hk.2) ?_ ?_
    (refuses_of_outlook _ (by decide) k))
  · exact fun k => ⟨endsType_mark (by decide) k, by simp⟩
  · exact ⟨endsType_mark (by decide) k, by simp⟩

/-- A parameter with a type as one whose type could be left out. -/
def Param.opened (p : Param) : OpenParam := ⟨p.name, some p.ty, p.span⟩

/-- Either all parameters have types, or there is a first one without. -/
theorem OpenParam.all_typed_or (ps : List OpenParam) :
    (∃ qs : List Param, ps = qs.map Param.opened) ∨
      ∃ (qs : List Param) (q : OpenParam) (rest : List OpenParam),
        ps = qs.map Param.opened ++ q :: rest ∧ q.ty = none := by
  induction ps with
  | nil => exact .inl ⟨[], rfl⟩
  | cons p ps ih =>
      obtain ⟨x, t, s⟩ := p
      cases t with
      | none => exact .inr ⟨[], ⟨x, none, s⟩, ps, rfl, rfl⟩
      | some t =>
          rcases ih with ⟨qs, rfl⟩ | ⟨qs, q, rest, rfl, hq⟩
          · exact .inl ⟨⟨x, t, s⟩ :: qs, rfl⟩
          · exact .inr ⟨⟨x, t, s⟩ :: qs, q, rest, rfl, hq⟩

/-- Parameters that do not all have types are not taken for parameters that do: that list ends in
front of the first one without. -/
theorem refuses_params {qs : List Param} (hqs : ∀ p ∈ qs, p.ty.ReadBack n) {q : OpenParam}
    (hq : q.ty = none) (rest : List OpenParam) (k : List Token) :
    Refuses (@Rule.parser n) (G.parens (G.commas G.param))
      (.mark .lparen :: (commas ((qs.map Param.opened ++ q :: rest).map OpenParam.tokens) ++
        .mark .rparen :: k)) := by
  -- a name without a colon stands where reading ends
  have hend : ∃ j, commas ((q :: rest).map OpenParam.tokens) ++ .mark .rparen :: k
      = .ident q.name :: j ∧ j.head? ≠ some (.mark .colon) := by
    refine ⟨rest.flatMap (fun p => .mark .comma :: p.tokens) ++ .mark .rparen :: k, ?_, ?_⟩
    · simp only [commas, List.map_cons, intercalate_cons, OpenParam.tokens, hq, List.flatMap_map]
      rfl
    · cases rest <;> simp
  obtain ⟨j, hj, hcolon⟩ := hend
  have hparam : Refuses (@Rule.parser n) G.param (.ident q.name :: j) :=
    .located (.seq_left (.map (.seq_right (reads_ident _ j) (refuses_mark hcolon))))
  cases qs with
  | nil =>
      rw [List.map_nil, List.nil_append, hj]
      exact refuses_parens (reads_commas_nil hparam) (by simp)
  | cons p qs =>
      have htokens : commas (((p :: qs).map Param.opened ++ q :: rest).map OpenParam.tokens) ++
            .mark .rparen :: k
          = commas ((p :: qs).map Param.tokens) ++ .mark .comma :: .ident q.name :: j := by
        rw [List.map_append, List.map_map, List.map_cons, List.map_cons, commas_append,
          List.append_assoc, List.cons_append]
        exact congrArg (commas ((p :: qs).map Param.tokens) ++ .mark .comma :: ·) hj
      have hread : Reads (@Rule.parser n) (G.commas G.param)
          (commas ((p :: qs).map Param.tokens) ++ .mark .comma :: .ident q.name :: j)
          (.ident q.name :: j) fun qs' => qs'.map Param.bare = (p :: qs).map Param.bare :=
        .sepBy_trailing (fun r hr k hk => Param.reads (hqs r hr) hk)
          (fun k => endsType_mark (by decide) k) hparam
      rw [htokens]
      exact refuses_parens hread (by simp)

end Rivulet.Source
