import Rivulet.Compiled
import Rivulet.Machine.Session

/-!
# The command line

`rivulet FILE [--emit FORM] [--run]` compiles a file. It prints the form that is asked for, or what
the program prints when it is run. Reports about the program go to standard error, one a line.
-/

set_option autoImplicit false

namespace Rivulet

/-- What the command line asks for. -/
structure Request where
  file : Option String := none
  form : Option Form := none
  run : Bool := false

namespace Request

/-- Read the arguments of the command line. -/
def ofArgs (r : Request) : List String → Except String Request
  | [] => .ok r
  | "--run" :: args => ofArgs { r with run := true } args
  | "--emit" :: name :: args =>
      match Form.ofName? name with
      | some form => ofArgs { r with form := some form } args
      | none => .error ("unknown form '" ++ name ++ "'")
  | arg :: args =>
      if r.file.isNone && !arg.startsWith "-" then ofArgs { r with file := some arg } args
      else .error ("unexpected argument '" ++ arg ++ "'")

end Request

/-- The texts for standard output and standard error, and whether all went well. -/
structure Printout where
  out : String := ""
  err : String := ""
  success : Bool := true

namespace Printout

/-- Lines that say why a request failed. -/
def failure (out : String) (lines : List String) : Printout :=
  ⟨out, String.join (lines.map fun l => l ++ "\n"), false⟩

/-- Answer a request about a source text that was read from a file. -/
def ofSource (r : Request) (file source : String) : Printout :=
  match Compiled.ofSource source r.form with
  | .error (.rejected ds) =>
      failure "" (ds.map Diagnostic.render ++ [toString ds.length ++ " error(s) in " ++ file])
  | .error (.broken b) => failure "" ["internal compiler error: " ++ b.message]
  | .ok compiled =>
      let text := compiled.text?.getD ""
      if !r.run then { out := text }
      else
        match compiled.module? with
        | none => failure text ["--run needs the full pipeline; drop --emit or use --emit lowered"]
        | some m =>
            match (Machine.Session.ofModule m).runMain Machine.ampleTime with
            | .ok _ store => { out := text ++ store.output }
            | .fault f _ => failure text ["runtime error: " ++ f.message]
            | .exhausted => failure text ["out of time"]

end Printout

/-- Answer the arguments of the command line. -/
def serve (args : List String) : IO Printout :=
  match Request.ofArgs {} args with
  | .error e => return .failure "" [e]
  | .ok r =>
      match r.file with
      | none => return .failure "" ["usage: rivulet FILE [--emit FORM] [--run]"]
      | some file =>
          try
            let source ← IO.FS.readFile file
            return .ofSource r file source
          catch _ => return .failure "" ["failed to read " ++ file]

end Rivulet

/-- The program. -/
def main (args : List String) : IO UInt32 := do
  let p ← Rivulet.serve args
  (← IO.getStdout).putStr p.out
  (← IO.getStderr).putStr p.err
  return if p.success then 0 else 1
