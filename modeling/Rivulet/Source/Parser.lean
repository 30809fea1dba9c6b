import Rivulet.Source.Capture
import Rivulet.Source.Grammar
import Rivulet.Token.Lexer

/-!
# Parsing

The parser of programs. It is the grammar run on the tokens of a text, with the captures of closures
resolved in the tree it gives. It never stops at a mistake: the tree of a text with mistakes holds
placeholders for what was skipped, and every mistake is reported.
-/

set_option autoImplicit false

namespace Rivulet.Source

open Grammar

/-- The parser of a rule, with rules nested at most `depth` deep. A statement may start with an
expression, and everything else that a rule refers to stands behind a token; so twice the number of
tokens, and two more, is never too little. -/
def Rule.parser : Nat → {α : Type} → Rule α → Parser α
  | 0, _, _ => fun c => ⟨[], .fail (c.failure [])⟩
  | depth + 1, _, r => r.body.run (parser depth)
termination_by structural depth => depth

/-- How deep rules can be nested in a list of tokens. -/
def depthFor (tokens : List Lexeme) : Nat := 2 * tokens.length + 2

/-- Parse the tokens of a text of `size` bytes. -/
def Program.ofTokens (tokens : List Lexeme) (size : Nat) : Report Failure Program :=
  let reply := G.program.run (Rule.parser (depthFor tokens)) (Cursor.start tokens size)
  match reply.result with
  | .ok p _ _ => ⟨p.resolve, reply.errors⟩
  | .fail e => ⟨⟨[]⟩, reply.errors ++ [e]⟩

/-- Parse a source text. The reports of the lexer come first. -/
def Program.ofSource (source : String) : Report Diagnostic Program :=
  let tokens := Token.lex source
  let program := Program.ofTokens tokens.value source.utf8ByteSize
  ⟨program.value, tokens.findings ++ program.findings.map Failure.diagnostic⟩

theorem Program.findings_ofSource_eq_nil_iff {source : String} :
    (Program.ofSource source).findings = [] ↔ (Token.lex source).findings = [] ∧
      (Program.ofTokens (Token.lex source).value source.utf8ByteSize).findings = [] := by
  simp only [Program.ofSource, List.append_eq_nil_iff, List.map_eq_nil_iff]

end Rivulet.Source
