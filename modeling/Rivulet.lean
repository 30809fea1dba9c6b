import Rivulet.Ascending
import Rivulet.Builtin
import Rivulet.Check.Env
import Rivulet.Check.Program
import Rivulet.Check.Rule
import Rivulet.Compiled
import Rivulet.Diagnostic
import Rivulet.Grammar.Basic
import Rivulet.Grammar.Cursor
import Rivulet.Grammar.Failure
import Rivulet.Grammar.Recovery
import Rivulet.Ir.Breach
import Rivulet.Ir.Context
import Rivulet.Ir.Dump
import Rivulet.Ir.Lowering
import Rivulet.Ir.MapFacts
import Rivulet.Ir.OfTyped
import Rivulet.Ir.Placement
import Rivulet.Ir.Printed
import Rivulet.Ir.Tree
import Rivulet.Ir.Ty
import Rivulet.Ir.Validate.Module
import Rivulet.Ir.Validate.Rule
import Rivulet.Machine.Eval
import Rivulet.Machine.Operation
import Rivulet.Machine.Session
import Rivulet.Machine.Store
import Rivulet.Machine.Value
import Rivulet.Main
import Rivulet.Operator
import Rivulet.Proofs.Ascending
import Rivulet.Proofs.Check.Captures
import Rivulet.Proofs.Check.Cascades
import Rivulet.Proofs.Check.Constants
import Rivulet.Proofs.Check.Judgement
import Rivulet.Proofs.Check.Locations
import Rivulet.Proofs.Check.PrintedTypes
import Rivulet.Proofs.Check.Rules
import Rivulet.Proofs.Check.Soundness
import Rivulet.Proofs.Code.Agreement
import Rivulet.Proofs.Code.Constants
import Rivulet.Proofs.Code.Generation
import Rivulet.Proofs.Code.GenerationSteps
import Rivulet.Proofs.Code.MapFacts
import Rivulet.Proofs.Code.ModuleGeneration
import Rivulet.Proofs.Code.Nesting
import Rivulet.Proofs.Code.Revalidation
import Rivulet.Proofs.Code.Settled
import Rivulet.Proofs.Code.SettledMaps
import Rivulet.Proofs.Code.SilentValidation
import Rivulet.Proofs.Code.Validation
import Rivulet.Proofs.Code.WellTyped
import Rivulet.Proofs.Code.Wholeness
import Rivulet.Proofs.Compiled.Constants
import Rivulet.Proofs.Compiled.Isolation
import Rivulet.Proofs.Compiled.Soundness
import Rivulet.Proofs.Compiled.Stages
import Rivulet.Proofs.Grammar.CleanReplies
import Rivulet.Proofs.Grammar.Derivations
import Rivulet.Proofs.Grammar.Reading
import Rivulet.Proofs.Lowering.Blocks
import Rivulet.Proofs.Lowering.Calls
import Rivulet.Proofs.Lowering.Conservation
import Rivulet.Proofs.Lowering.ElementLoops
import Rivulet.Proofs.Lowering.Failure
import Rivulet.Proofs.Lowering.Hoisting
import Rivulet.Proofs.Lowering.MapLoop
import Rivulet.Proofs.Lowering.Meaning
import Rivulet.Proofs.Lowering.Observation
import Rivulet.Proofs.Lowering.Outcome
import Rivulet.Proofs.Lowering.PairedFrames
import Rivulet.Proofs.Lowering.PairedStores
import Rivulet.Proofs.Lowering.Pairing
import Rivulet.Proofs.Lowering.Safety
import Rivulet.Proofs.Lowering.SideBySide
import Rivulet.Proofs.Lowering.Simulation
import Rivulet.Proofs.Lowering.Spilling
import Rivulet.Proofs.Lowering.Steps
import Rivulet.Proofs.Lowering.Success
import Rivulet.Proofs.Lowering.Temporaries
import Rivulet.Proofs.Lowering.Typing
import Rivulet.Proofs.Machine.Alike
import Rivulet.Proofs.Machine.Frames
import Rivulet.Proofs.Machine.GraftedRuns
import Rivulet.Proofs.Machine.Grafting
import Rivulet.Proofs.Machine.MoreTime
import Rivulet.Proofs.Machine.Operations
import Rivulet.Proofs.Machine.Powers
import Rivulet.Proofs.Machine.Relocation
import Rivulet.Proofs.Machine.SafeOperations
import Rivulet.Proofs.Machine.Safety
import Rivulet.Proofs.Machine.SteadyCells
import Rivulet.Proofs.Machine.SteadyRuns
import Rivulet.Proofs.Machine.StoreTyping
import Rivulet.Proofs.Machine.Traces
import Rivulet.Proofs.Machine.Views
import Rivulet.Proofs.Placement.Aliases
import Rivulet.Proofs.Placement.Confinement
import Rivulet.Proofs.Placement.KeepingSecrets
import Rivulet.Proofs.Placement.LeastAliases
import Rivulet.Proofs.Placement.Numbering
import Rivulet.Proofs.Placement.Safety
import Rivulet.Proofs.Placement.Secrecy
import Rivulet.Proofs.Placement.Watch
import Rivulet.Proofs.Source.CaptureWalk
import Rivulet.Proofs.Source.FreeNames
import Rivulet.Proofs.Source.Grouping
import Rivulet.Proofs.Source.Layout
import Rivulet.Proofs.Source.Phrases
import Rivulet.Proofs.Source.Printer
import Rivulet.Proofs.Source.ReadingBack
import Rivulet.Proofs.Source.ReadingTypes
import Rivulet.Proofs.Source.RoundTrip
import Rivulet.Proofs.Source.Scoping
import Rivulet.Proofs.Source.SilentParses
import Rivulet.Proofs.Source.WholePrograms
import Rivulet.Proofs.Token.Accounting
import Rivulet.Proofs.Token.Joining
import Rivulet.Proofs.Token.Patterns
import Rivulet.Proofs.Token.Spelling
import Rivulet.Proofs.Typing.Counterpart
import Rivulet.Proofs.Typing.Morphism
import Rivulet.Proofs.Typing.Proper
import Rivulet.Report
import Rivulet.Source.Capture
import Rivulet.Source.Climb
import Rivulet.Source.Dump
import Rivulet.Source.Grammar
import Rivulet.Source.Parser
import Rivulet.Source.Tree
import Rivulet.Span
import Rivulet.Text.Dump
import Rivulet.Text.Printable
import Rivulet.Text.Quoted
import Rivulet.Token.Basic
import Rivulet.Token.Lexer
import Rivulet.Typed.Dump
import Rivulet.Typed.Tree
import Rivulet.Typed.Ty
import Rivulet.Typing.Fault
import Rivulet.Typing.Operand
import Rivulet.Proofs.Grammar.Behaviour
import Rivulet.Proofs.Grammar.Progress
import Rivulet.Proofs.Grammar.Termination
import Rivulet.Proofs.Source.Progress
import Rivulet.Proofs.Check.FaithfulRules
import Rivulet.Proofs.Check.ResultLists
