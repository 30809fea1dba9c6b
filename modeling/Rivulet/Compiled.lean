import Rivulet.Check.Program
import Rivulet.Ir.Lowering
import Rivulet.Ir.MapFacts
import Rivulet.Ir.OfTyped
import Rivulet.Ir.Placement
import Rivulet.Ir.Printed
import Rivulet.Ir.Validate.Module
import Rivulet.Source.Dump
import Rivulet.Source.Parser
import Rivulet.Typed.Dump

/-!
# Compiled programs

The way from a source text to lowered code. A text is read, checked and turned into intermediate
code; the code is validated again on its own types, its maps get their facts, and it is lowered.
Reading, checking and validating each stop the way if they have anything to report. A form of the
program on the way can be asked for: compilation then ends there with the text of that form, except
that lowered code is there in any case and its text comes in addition.
-/

set_option autoImplicit false

namespace Rivulet

/-- The forms of a program that can be shown. -/
inductive Form where
  | tokens
  | ast
  | typed
  | ir
  | lowered
deriving DecidableEq

namespace Form

/-- The name by which a form is asked for. -/
def name : Form → String
  | .tokens => "tokens"
  | .ast => "ast"
  | .typed => "typed"
  | .ir => "ir"
  | .lowered => "lowered"

/-- All forms, in the order in which they come about. -/
def all : List Form := [.tokens, .ast, .typed, .ir, .lowered]

/-- The form of a given name. -/
def ofName? (text : String) : Option Form := all.find? fun f => f.name == text

end Form

/-- What comes of a program that compiles. -/
inductive Compiled where
  /-- The text of an earlier form, which was asked for. -/
  | shown (text : String)
  /-- Lowered code, and its text if that was asked for. -/
  | lowered (module : Ir.Module) (text : Option String)

/-- Why a program does not compile. -/
inductive CompileFault where
  /-- There is something to report about the program. -/
  | rejected (diagnostics : List Diagnostic)
  /-- One stage broke its promise to another. -/
  | broken (breach : Ir.Breach)

namespace CompileFault

/-- The reports about the program. -/
def diagnostics : CompileFault → List Diagnostic
  | .rejected ds => ds
  | .broken _ => []

/-- The failure in words. -/
def message : CompileFault → String
  | .rejected ds => "compilation failed with " ++ toString ds.length ++ " error(s)"
  | .broken b => b.message

end CompileFault

/-- The value of a report that is empty. -/
def Report.accept {α : Type} (r : Report Diagnostic α) : Except CompileFault α :=
  if r.findings.isEmpty then .ok r.value else .error (.rejected r.findings)

/-- The value of a step that keeps its promises. -/
def CompileFault.unbroken {α : Type} : Except Ir.Breach α → Except CompileFault α
  | .ok a => .ok a
  | .error b => .error (.broken b)

/-- A line for each token: what it is and where it stands. -/
def Token.renderAll (ls : List Lexeme) : String :=
  String.join (ls.map fun l => l.token.dump.line ++ " @ " ++ l.span.render ++ "\n")

/-- Where the sequences of each function live. -/
def Ir.Module.placements (m : Ir.Module) : List (String × Ir.Placements) :=
  m.functions.map fun f => (f.name, f.placements)

/-- The last entry of each name. -/
def lastOfNames {α : Type} : List (String × α) → List (String × α)
  | [] => []
  | (name, a) :: rest =>
      if rest.any fun entry => entry.1 == name then lastOfNames rest
      else (name, a) :: lastOfNames rest

namespace Compiled

/-! ## The stages -/

/-- The tokens of a source text. -/
def readTokens (source : String) : Except CompileFault (List Lexeme) :=
  Report.accept (Token.lex source)

/-- The tree of a source text. -/
def parse (source : String) : Except CompileFault Source.Program :=
  Report.accept (Source.Program.ofSource source)

/-- The typed tree of a program. -/
def check (p : Source.Program) : Except CompileFault Typed.Program :=
  Report.accept ((Typed.Program.check p).mapFindings Typing.Finding.diagnostic)

/-- The validated code of a typed program. -/
def generate (p : Typed.Program) : Except CompileFault Ir.Module := do
  let m ← CompileFault.unbroken (Ir.Module.ofTyped p)
  Report.accept (m.validate.mapFindings Typing.Finding.plainDiagnostic)

/-- The lowered code of a module. -/
def lower (m : Ir.Module) : Except CompileFault Ir.Module := do
  let (count, m) := m.withMapFacts.lower
  let _ ← CompileFault.unbroken count
  pure m

/-! ## The way -/

/-- Compile a source text, up to the form that is asked for. -/
def ofSource (source : String) (form : Option Form) : Except CompileFault Compiled := do
  if form = some .tokens then
    let tokens ← readTokens source
    return .shown (Token.renderAll tokens)
  let program ← parse source
  if form = some .ast then
    return .shown (program.dump.block ++ "\n")
  let typed ← check program
  if form = some .typed then
    return .shown (typed.dump.block ++ "\n")
  let code ← generate typed
  if form = some .ir then
    return .shown code.render
  let code ← lower code
  return .lowered code (if form = some .lowered then some code.render else none)

/-- The text that was asked for. -/
def text? : Compiled → Option String
  | .shown text => some text
  | .lowered _ text => text

/-- The lowered code, unless an earlier form was asked for. -/
def module? : Compiled → Option Ir.Module
  | .shown _ => none
  | .lowered m _ => some m

/-- Where the sequences of each function live; nothing before the code is lowered. As for calls, the
last of several functions of one name counts. -/
def placements (c : Compiled) : List (String × Ir.Placements) :=
  match c.module? with
  | some m => lastOfNames m.placements
  | none => []

end Compiled

end Rivulet
