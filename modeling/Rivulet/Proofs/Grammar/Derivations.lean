import Rivulet.Proofs.Grammar.CleanReplies

set_option autoImplicit false

/-! # Derivations

A grammar as a description of a language, without order, without cursors and without recovery:
`Gram.Derives` says which tokens stand for which value, one clause for each form of grammar. An
alternative stands for what either side stands for, and what a recovery puts in place of a failure
stands for nothing.

A clean reply is a derivation (`Gram.derives_of_clean`): the tokens between the two cursors stand
for the value. -/

namespace Rivulet.Grammar

/-! ## The tokens between two cursors -/

/-- The span from the first token to the last. -/
def extent : List Lexeme → Span
  | [] => .nowhere
  | l :: ls => l.span.through ((l :: ls).getLast (List.cons_ne_nil l ls)).span

theorem extent_bracketed (l r : Lexeme) (ls : List Lexeme) :
    extent (l :: (ls ++ [r])) = l.span.through r.span := by
  have hne : ls ++ [r] ≠ [] := List.append_ne_nil_of_right_ne_nil ls (List.cons_ne_nil r [])
  rw [extent, List.getLast_cons hne, List.getLast_append_of_ne_nil hne (List.cons_ne_nil r [])]
  rfl

namespace Cursor

/-- Reading the given tokens leads from one cursor to another. -/
inductive Passes : Cursor → List Lexeme → Cursor → Prop where
  | nil (c : Cursor) : Passes c [] c
  | cons {c m d : Cursor} {l : Lexeme} {ls : List Lexeme} (head : c.next? = some (l, m))
      (tail : Passes m ls d) : Passes c (l :: ls) d

theorem of_next? {c d : Cursor} {l : Lexeme} (h : c.next? = some (l, d)) :
    c.rest = l :: d.rest ∧ d.position = c.position + 1 ∧ d.lastStop = l.span.stop := by
  unfold next? at h
  split at h
  · cases h
  · rename_i hrest
    cases h
    exact ⟨hrest, rfl, rfl⟩

namespace Passes

variable {c m d : Cursor} {ls ms : List Lexeme}

theorem one {l : Lexeme} (h : c.next? = some (l, d)) : c.Passes [l] d := .cons h (.nil d)

theorem append (hc : c.Passes ls m) (hm : m.Passes ms d) : c.Passes (ls ++ ms) d := by
  induction hc with
  | nil => exact hm
  | cons head _ ih => exact .cons head (ih hm)

theorem rest_eq (h : c.Passes ls d) : c.rest = ls ++ d.rest := by
  induction h with
  | nil => rfl
  | cons head _ ih => rw [(of_next? head).1, ih, List.cons_append]

theorem position_eq (h : c.Passes ls d) : d.position = c.position + ls.length := by
  induction h with
  | nil => rfl
  | cons head _ ih =>
      have hnext := (of_next? head).2.1
      rw [List.length_cons]
      omega

theorem lastStop_eq (h : c.Passes ls d) (hne : ls ≠ []) :
    d.lastStop = (ls.getLast hne).span.stop := by
  induction h with
  | nil => exact absurd rfl hne
  | @cons c m d l ls head tail ih =>
      by_cases hls : ls = []
      · subst hls
        cases tail
        exact (of_next? head).2.2
      · rw [ih hls, List.getLast_cons hls]

/-- The span between two cursors is the extent of the tokens between them, if there are any. -/
theorem spanTo_eq (h : c.Passes ls d) (hne : ls ≠ []) : c.spanTo d = extent ls := by
  have hposition := h.position_eq
  have hlast := h.lastStop_eq hne
  cases ls with
  | nil => exact absurd rfl hne
  | cons l ls =>
      have hlt : c.position < d.position := by
        rw [List.length_cons] at hposition
        omega
      have hspan : c.span = l.span := by
        rw [span, h.rest_eq, List.cons_append]
      rw [spanTo, if_pos hlt, hlast, hspan]
      rfl

end Passes

end Cursor

/-! ## Wordings -/

/-- Which tokens stand for which values. -/
abbrev Wording (α : Type) := List Lexeme → α → Prop

namespace Wording

variable {α : Type} {L L' : Wording α} {S S' : List Lexeme → Prop}

/-- Values in a row. -/
inductive Many (L : Wording α) : Wording (List α) where
  | nil : Many L [] []
  | cons {ls ms : List Lexeme} {a : α} {as : List α} (head : L ls a) (tail : Many L ms as) :
      Many L (ls ++ ms) (a :: as)

/-- Values with separators between them and, if `allowTrailing`, possibly one behind the last. -/
inductive Separated (L : Wording α) (S : List Lexeme → Prop) : Bool → Wording (List α) where
  | nil {allowTrailing : Bool} : Separated L S allowTrailing [] []
  | last {allowTrailing : Bool} {ls : List Lexeme} {a : α} (head : L ls a) :
      Separated L S allowTrailing ls [a]
  | trailing {ls ss : List Lexeme} {a : α} (head : L ls a) (separator : S ss) :
      Separated L S true (ls ++ ss) [a]
  | cons {allowTrailing : Bool} {ls ss ms : List Lexeme} {a b : α} {bs : List α} (head : L ls a)
      (separator : S ss) (tail : Separated L S allowTrailing ms (b :: bs)) :
      Separated L S allowTrailing (ls ++ (ss ++ ms)) (a :: b :: bs)

theorem Many.mono (h : ∀ ls a, L ls a → L' ls a) {ls : List Lexeme} {as : List α}
    (hls : Many L ls as) : Many L' ls as := by
  induction hls with
  | nil => exact .nil
  | cons head _ ih => exact .cons (h _ _ head) ih

theorem Separated.mono {allowTrailing : Bool} (h : ∀ ls a, L ls a → L' ls a)
    (hS : ∀ ss, S ss → S' ss) {ls : List Lexeme} {as : List α}
    (hls : Separated L S allowTrailing ls as) : Separated L' S' allowTrailing ls as := by
  induction hls with
  | nil => exact .nil
  | last head => exact .last (h _ _ head)
  | trailing head separator => exact .trailing (h _ _ head) (hS _ separator)
  | cons head separator _ ih => exact .cons (h _ _ head) (hS _ separator) ih

end Wording

/-! ## What a grammar derives -/

namespace Gram

variable {R : Type → Type} {α β γ : Type}

/-- The tokens stand for the value by the given grammar, if those of a rule do so by `lang`. -/
def Derives (lang : {α : Type} → R α → Wording α) : {α : Type} → Gram R α → Wording α
  | _, .token t => fun ls a => ∃ l, ls = [l] ∧ l.token = t ∧ a = t
  | _, .pick f => fun ls a => ∃ l, ls = [l] ∧ f l.token = some a
  | _, .finish => fun ls _ => ls = []
  | _, .seq a b => fun ls v =>
      ∃ ms ns, ls = ms ++ ns ∧ a.Derives lang ms v.1 ∧ b.Derives lang ns v.2
  | _, .map f a => fun ls v => ∃ x, a.Derives lang ls x ∧ v = f x
  | _, .orElse a b => fun ls v => a.Derives lang ls v ∨ b.Derives lang ls v
  | _, .optional a => fun ls o => (ls = [] ∧ o = none) ∨ ∃ x, a.Derives lang ls x ∧ o = some x
  | _, .many a => Wording.Many (a.Derives lang)
  | _, .sepBy item sep allowTrailing =>
      Wording.Separated (item.Derives lang) (fun ss => ∃ b, sep.Derives lang ss b) allowTrailing
  | _, .located f a => fun ls v =>
      ∃ x s, a.Derives lang ls x ∧ (ls ≠ [] → s = extent ls) ∧ v = f x s
  | _, .orSkipBrackets a _ _ => a.Derives lang
  | _, .orSkipTokens a => a.Derives lang
  | _, .rule r => lang r
termination_by structural _ a => a

namespace Derives

variable {lang : {α : Type} → R α → Wording α} {a : Gram R α} {b : Gram R β} {o : Gram R γ}
  {ls : List Lexeme}

theorem of_right {y : β} (h : (Gram.right a b).Derives lang ls y) :
    ∃ ms ns x, ls = ms ++ ns ∧ a.Derives lang ms x ∧ b.Derives lang ns y := by
  obtain ⟨v, ⟨ms, ns, rfl, hms, hns⟩, rfl⟩ := h
  exact ⟨ms, ns, v.1, rfl, hms, hns⟩

theorem of_left {x : α} (h : (Gram.left a b).Derives lang ls x) :
    ∃ ms ns y, ls = ms ++ ns ∧ a.Derives lang ms x ∧ b.Derives lang ns y := by
  obtain ⟨v, ⟨ms, ns, rfl, hms, hns⟩, rfl⟩ := h
  exact ⟨ms, ns, v.2, rfl, hms, hns⟩

theorem of_between {x : α} (h : (Gram.between o a b).Derives lang ls x) :
    ∃ os ms cs z y, ls = os ++ (ms ++ cs) ∧ o.Derives lang os z ∧ a.Derives lang ms x ∧
      b.Derives lang cs y := by
  obtain ⟨ns, cs, y, rfl, hns, hcs⟩ := of_left h
  obtain ⟨os, ms, z, rfl, hos, hms⟩ := of_right hns
  exact ⟨os, ms, cs, z, y, List.append_assoc os ms cs, hos, hms, hcs⟩

end Derives

/-- Whether a grammar is a single token. -/
def isToken : {α : Type} → Gram R α → Bool
  | _, .token _ => true
  | _, _ => false

/-- Whether all separators are single tokens. The errors of the separator behind the last item are
lost, so a grammar that can recover must not stand there. -/
def isPlain : {α : Type} → Gram R α → Bool
  | _, .token _ | _, .pick _ | _, .finish | _, .rule _ => true
  | _, .seq a b => a.isPlain && b.isPlain
  | _, .orElse a b => a.isPlain && b.isPlain
  | _, .map _ a => a.isPlain
  | _, .optional a => a.isPlain
  | _, .many a => a.isPlain
  | _, .sepBy item sep _ => item.isPlain && sep.isToken
  | _, .located _ a => a.isPlain
  | _, .orSkipBrackets a _ _ => a.isPlain
  | _, .orSkipTokens a => a.isPlain
termination_by structural _ a => a

/-! ## Clean replies are derivations -/

/-- What a parser reads without errors is written as `L` says. -/
def Spells (p : Parser α) (L : Wording α) : Prop :=
  ∀ ⦃c : Cursor⦄ ⦃a : α⦄ ⦃d : Cursor⦄, Parser.Clean p c a d → ∃ ls, c.Passes ls d ∧ L ls a

namespace Spells

variable {p : Parser α} {sep : Parser β} {L : Wording α} {S : Wording β}

theorem rounds (h : Spells p L) {c d : Cursor} {as : List α} (hrounds : p.CleanRounds c as d) :
    ∃ ls, c.Passes ls d ∧ Wording.Many L ls as := by
  induction hrounds with
  | nil c => exact ⟨[], .nil c, .nil⟩
  | cons head _ ih =>
      obtain ⟨ls, hpass, hls⟩ := h head
      obtain ⟨ms, hpass', hms⟩ := ih
      exact ⟨ls ++ ms, hpass.append hpass', .cons hls hms⟩

/-- The last item is followed by nothing or by a separator, as `hlast` says; those before it are
found by induction on the rounds. -/
theorem items {allowTrailing : Bool} (h : Spells p L) (hsep : Spells sep S) {m n d : Cursor}
    {as : List α} (hitems : Parser.CleanItems p sep m as n)
    (hlast : d = n ∨ allowTrailing = true ∧ ∃ b, sep.Clean n b d) :
    ∀ {c : Cursor} {a : α}, p.Clean c a m →
      ∃ ls, c.Passes ls d ∧
        Wording.Separated L (fun ss => ∃ b, S ss b) allowTrailing ls (a :: as) := by
  induction hitems with
  | nil n =>
      intro c a ha
      obtain ⟨ls, hpass, hls⟩ := h ha
      rcases hlast with rfl | ⟨rfl, b, hb⟩
      · exact ⟨ls, hpass, .last hls⟩
      · obtain ⟨ss, hpass', hss⟩ := hsep hb
        exact ⟨ls ++ ss, hpass.append hpass', .trailing hls ⟨b, hss⟩⟩
  | cons separator head _ ih =>
      intro c a ha
      obtain ⟨ls, hpass, hls⟩ := h ha
      obtain ⟨ss, hpass₁, hss⟩ := hsep separator
      obtain ⟨ms, hpass₂, hms⟩ := ih hlast head
      exact ⟨ls ++ (ss ++ ms), hpass.append (hpass₁.append hpass₂), .cons hls ⟨_, hss⟩ hms⟩

end Spells

variable {rules : {α : Type} → R α → Parser α} {lang : {α : Type} → R α → Wording α}

/-- A single token recovers from nothing. -/
theorem errors_of_isToken {g : Gram R α} (h : g.isToken = true) (c : Cursor) :
    (g.run rules c).errors = [] := by
  cases g with
  | token t =>
      rw [run_token, Parser.token]
      split
      · split <;> rfl
      · rfl
  | _ => cases h

theorem isPlain_of_isToken {g : Gram R α} (h : g.isToken = true) : g.isPlain = true := by
  cases g with
  | token t => rfl
  | _ => cases h

/-- Of a parser that never recovers, every value is clean. -/
theorem clean_of_result {p : Parser α} (h : ∀ c, (p c).errors = []) {c d : Cursor} {a : α}
    {rival : Option Failure} (hres : (p c).result = .ok a d rival) : Parser.Clean p c a d := by
  refine ⟨rival, ?_⟩
  rw [← h c, ← hres]

/-- **A clean reply is a derivation.** The tokens between the cursors stand for the value, given
that this is so for the rules. -/
theorem derives_of_clean (hrules : ∀ {α : Type} (r : R α), Spells (rules r) (lang r)) (g : Gram R α)
    (hg : g.isPlain = true) : Spells (g.run rules) (g.Derives lang) := by
  induction g with
  | token t =>
      intro c a d h
      obtain ⟨rfl, l, hnext, hl⟩ := Parser.Clean.token h
      exact ⟨[l], .one hnext, l, rfl, hl, rfl⟩
  | pick f =>
      intro c a d h
      obtain ⟨l, hnext, hl⟩ := Parser.Clean.pick h
      exact ⟨[l], .one hnext, l, rfl, hl⟩
  | finish =>
      intro c a d h
      obtain ⟨rfl, -⟩ := Parser.Clean.finish h
      exact ⟨[], .nil d, rfl⟩
  | seq a b iha ihb =>
      intro c v d h
      obtain ⟨ha, hb⟩ := (Bool.and_eq_true _ _).mp hg
      obtain ⟨m, hx, hy⟩ := Parser.Clean.seq h
      obtain ⟨ls, hpass, hls⟩ := iha ha hx
      obtain ⟨ms, hpass', hms⟩ := ihb hb hy
      exact ⟨ls ++ ms, hpass.append hpass', ls, ms, rfl, hls, hms⟩
  | map f a ih =>
      intro c v d h
      obtain ⟨x, hx, rfl⟩ := Parser.Clean.map h
      obtain ⟨ls, hpass, hls⟩ := ih hg hx
      exact ⟨ls, hpass, x, hls, rfl⟩
  | orElse a b iha ihb =>
      intro c v d h
      obtain ⟨ha, hb⟩ := (Bool.and_eq_true _ _).mp hg
      rcases Parser.Clean.orElse h with hx | hx
      · obtain ⟨ls, hpass, hls⟩ := iha ha hx
        exact ⟨ls, hpass, .inl hls⟩
      · obtain ⟨ls, hpass, hls⟩ := ihb hb hx
        exact ⟨ls, hpass, .inr hls⟩
  | optional a ih =>
      intro c o d h
      rcases Parser.Clean.optional h with ⟨rfl, rfl⟩ | ⟨x, rfl, hx⟩
      · exact ⟨[], .nil d, .inl ⟨rfl, rfl⟩⟩
      · obtain ⟨ls, hpass, hls⟩ := ih hg hx
        exact ⟨ls, hpass, .inr ⟨x, hls, rfl⟩⟩
  | many a ih =>
      intro c as d h
      exact Spells.rounds (ih hg) (Parser.Clean.many h)
  | sepBy item sep allowTrailing ihitem ihsep =>
      intro c as d h
      rcases Parser.Clean.sepBy h with ⟨rfl, rfl⟩ | ⟨x, xs, m, n, rfl, hx, hitems, hlast⟩
      · exact ⟨[], .nil d, .nil⟩
      · obtain ⟨hitem, hsep⟩ := (Bool.and_eq_true _ _).mp hg
        refine Spells.items (ihitem hitem) (ihsep (isPlain_of_isToken hsep)) hitems ?_ hx
        exact hlast.imp_right fun ⟨hallow, b, rival, hb⟩ =>
          ⟨hallow, b, clean_of_result (errors_of_isToken hsep) hb⟩
  | located f a ih =>
      intro c v d h
      obtain ⟨x, hx, rfl⟩ := Parser.Clean.located h
      obtain ⟨ls, hpass, hls⟩ := ih hg hx
      exact ⟨ls, hpass, x, c.spanTo d, hls, hpass.spanTo_eq, rfl⟩
  -- a clean reply skipped nothing, so what could recover did not have to
  | orSkipBrackets a b placeholder ih => exact fun c v d h => ih hg (Parser.Clean.orSkipBrackets h)
  | orSkipTokens a ih => exact fun c v d h => ih hg (Parser.Clean.orSkipTokens h)
  | rule r => exact hrules r

end Gram

end Rivulet.Grammar
