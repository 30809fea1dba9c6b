import Rivulet.Proofs.Grammar.Termination
import Rivulet.Source.Parser

set_option autoImplicit false

/-! # Parsing always makes progress

The grammar of the language is guarded: types and expressions start with a token, a statement can
start with an expression, and nothing else is nested before something was read. So every item that a
loop of the grammar repeats reads a token whenever it succeeds, by recovery or without; and the
parser, which counts the rounds of its loops and the depth of its rules, never comes to the end of a
count: without any bound it would reply the same, on every list of tokens.

Main statement: `parse_progresses`. -/

namespace Rivulet.Source

open Grammar Gram

/-! ## The grammar is guarded -/

/-- How high a rule stands: a rule may start with rules below it. -/
def Rule.level : {α : Type} → Rule α → Nat
  | _, .type | _, .expr => 0
  | _, .stmt => 1

theorem Rule.guarded : Guarded Rule.body Rule.level 2 where
  reads q := by cases q <;> decide
  loops q := by cases q <;> rfl
  starts q := by cases q <;> rfl
  below q := by cases q <;> decide

/-! ## The items of the grammar -/

/-- The rules, and the parts of the grammar that its loops repeat. -/
inductive G.IsItem : {α : Type} → G α → Prop where
  | type : IsItem (.rule .type)
  | expr : IsItem (.rule .expr)
  | stmt : IsItem (.rule .stmt)
  | function : IsItem G.function
  /-- A function, or what is skipped up to the next one. -/
  | anyFunction : IsItem (.orSkipTokens G.function)
  | param : IsItem G.param
  | openParam : IsItem G.openParam
  | suffix : IsItem G.suffix
  | unaryOp : IsItem G.unaryOp
  /-- A binary operator and its right operand. -/
  | operation : IsItem (Gram.seq (.pick G.binaryOp?) G.operand)

theorem G.IsItem.reads {α : Type} {g : G α} (h : g.IsItem) : 1 ≤ g.minTokens := by
  cases h <;> decide

theorem G.IsItem.loopsRead {α : Type} {g : G α} (h : g.IsItem) : g.loopsRead = true := by
  cases h <;> rfl

/-! ## Progress -/

/-- At the start of a list of tokens the parser has the depth that a run needs. -/
theorem depthFor_eq (tokens : List Lexeme) (size : Nat) :
    depthFor tokens = 2 * (Cursor.start tokens size).rest.length + 2 := rfl

/-- **Parsing always makes progress.** At every cursor the run of an item ends, with the reply of the
parser, and if it succeeds it has read a token. So does the run of the whole grammar end, on every
list of tokens, and its reply is the one from which the program is taken. -/
theorem parse_progresses :
    (∀ {α : Type} {g : G α}, g.IsItem → ∀ c : Cursor,
      (∀ r, RunsTo Rule.body g c r ↔ r = g.run (Rule.parser (2 * c.rest.length + 2)) c) ∧
      ∀ errs a d rival, RunsTo Rule.body g c ⟨errs, .ok a d rival⟩ → c.position < d.position) ∧
    ∀ (tokens : List Lexeme) (size : Nat) (r : Reply Program),
      RunsTo Rule.body G.program (Cursor.start tokens size) r ↔
        r = G.program.run (Rule.parser (depthFor tokens)) (Cursor.start tokens size) := by
  have hparsers : ∀ (n : Nat) {α : Type} (q : Rule α),
      Rule.parser (n + 1) q = q.body.run (Rule.parser n) := fun _ _ _ => rfl
  refine ⟨fun {α g} hg c => ⟨?_, ?_⟩, fun tokens size r => ?_⟩
  · exact Rule.guarded.runsTo_iff hparsers g hg.loopsRead c
  · intro errs a d rival hrun
    have hapart := (Rule.guarded.reads_of_runsTo g).weaken hg.reads hrun rfl
    exact hapart.position
  · rw [depthFor_eq tokens size]
    exact Rule.guarded.runsTo_iff hparsers G.program rfl (Cursor.start tokens size) r

set_option maxRecDepth 100000 in
/-- A function is found behind a token that belongs to none: the run ends with an error, and with a
value that was read. -/
theorem parse_progresses_recovered :
    let c := Cursor.start (Token.lex "x function f() { }").value 18
    ∃ errs f d rival, RunsTo Rule.body (.orSkipTokens G.function) c ⟨errs, .ok f d rival⟩ ∧
      errs.length = 1 ∧ c.position < d.position := by
  intro c
  obtain ⟨hends, hreads⟩ := parse_progresses.1 .anyFunction c
  have hreply : ((Gram.orSkipTokens G.function).run
      (Rule.parser (2 * c.rest.length + 2)) c).errors.length = 1 := by decide +kernel
  have hok : (match ((Gram.orSkipTokens G.function).run
      (Rule.parser (2 * c.rest.length + 2)) c).result with
    | .ok _ _ _ => true
    | .fail _ => false) = true := by decide +kernel
  generalize hr : (Gram.orSkipTokens G.function).run
    (Rule.parser (2 * c.rest.length + 2)) c = r at hreply hok
  obtain ⟨errs, result⟩ := r
  cases result with
  | fail e => cases hok
  | ok f d rival =>
      have hrun := (hends _).2 hr.symm
      exact ⟨errs, f, d, rival, hrun, hreply, hreads errs f d rival hrun⟩

end Rivulet.Source
