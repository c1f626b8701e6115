import ScriptCompiler.Compile.Unit
import ScriptCompiler.Exchange.Json
import ScriptCompiler.Exchange.ScriptForm
import ScriptCompiler.Exchange.TreeForm
import ScriptCompiler.Proofs.Binary64
import ScriptCompiler.Proofs.Bytes
import ScriptCompiler.Proofs.Cell
import ScriptCompiler.Proofs.Code.Basic
import ScriptCompiler.Proofs.Code.Constants
import ScriptCompiler.Proofs.Code.Instructions
import ScriptCompiler.Proofs.Code.Offsets
import ScriptCompiler.Proofs.Code.Spans
import ScriptCompiler.Proofs.Code.Switch
import ScriptCompiler.Proofs.Emission
import ScriptCompiler.Proofs.Instruction
import ScriptCompiler.Proofs.Layout.Minimality
import ScriptCompiler.Proofs.Layout.Preservation
import ScriptCompiler.Proofs.Layout.Relocation
import ScriptCompiler.Proofs.Layout.Sites
import ScriptCompiler.Proofs.Layout.Widening
import ScriptCompiler.Proofs.SpanTable
import ScriptCompiler.Proofs.TargetIndex
import ScriptCompiler.Script.Listing
import ScriptCompiler.Proofs.Lowering.Action
import ScriptCompiler.Proofs.Lowering.Constructs
import ScriptCompiler.Proofs.Lowering.Run
import ScriptCompiler.Proofs.Draft.Basic
import ScriptCompiler.Proofs.Draft.Emit
import ScriptCompiler.Proofs.Code.Notes
import ScriptCompiler.Proofs.Draft.Plain
import ScriptCompiler.Proofs.Draft.Jumps
import ScriptCompiler.Proofs.Draft.Chains
import ScriptCompiler.Proofs.Draft.Statements
import ScriptCompiler.Proofs.Draft.Progress
import ScriptCompiler.Proofs.Draft.Logic
import ScriptCompiler.Proofs.Draft.Leaving
import ScriptCompiler.Proofs.Draft.Trying
import ScriptCompiler.Proofs.Walk.Basic
import ScriptCompiler.Proofs.Walk.Strand
import ScriptCompiler.Proofs.Walk.Expressions
import ScriptCompiler.Proofs.Walk.Loops
import ScriptCompiler.Proofs.Draft.Hoisting
import ScriptCompiler.Proofs.Walk.Blocks
import ScriptCompiler.Proofs.Walk.Statements
import ScriptCompiler.Proofs.Walk.Exits
import ScriptCompiler.Proofs.Draft.Recode
import ScriptCompiler.Proofs.Walk.Trying
import ScriptCompiler.Proofs.Draft.Switch
import ScriptCompiler.Proofs.Walk.Plans
import ScriptCompiler.Proofs.Walk.Switch
import ScriptCompiler.Proofs.Walk.Functions
import ScriptCompiler.Proofs.Walk.Nodes
import ScriptCompiler.Proofs.Code.Resolution
import ScriptCompiler.Proofs.Layout.Displacement
import ScriptCompiler.Proofs.Draft.Resolution
import ScriptCompiler.Proofs.Lowering.Depths
import ScriptCompiler.Proofs.Lowering.Labels
import ScriptCompiler.Proofs.Draft.Closing
import ScriptCompiler.Proofs.Note.Buffer
import ScriptCompiler.Proofs.Unit.Encoding
import ScriptCompiler.Proofs.Unit.Finishing
import ScriptCompiler.Proofs.Unit.Compilation
import ScriptCompiler.Proofs.Unit.WellFormed
import ScriptCompiler.Proofs.Unit.Occurrences
import ScriptCompiler.Proofs.Unit.Regions
import ScriptCompiler.Proofs.Grammar
import ScriptCompiler.Proofs.Unit.Enclosing
import ScriptCompiler.Proofs.Unit.Exits
import ScriptCompiler.Proofs.Unit.Switches
import ScriptCompiler.Proofs.Layout.Notes
import ScriptCompiler.Proofs.Layout.Covering
import ScriptCompiler.Proofs.Line.Chart
import ScriptCompiler.Proofs.Line.Notes
import ScriptCompiler.Proofs.Line.Emission
import ScriptCompiler.Proofs.Layout.Ascending
import ScriptCompiler.Proofs.Layout.SideTables
import ScriptCompiler.Proofs.Unit.Widths
import ScriptCompiler.Proofs.Code.Totality
import ScriptCompiler.Proofs.Code.Runs
import ScriptCompiler.Proofs.Code.Transparency
import ScriptCompiler.Proofs.Code.Chains
import ScriptCompiler.Proofs.Line.Finish
import ScriptCompiler.Proofs.Lowering.Balance
import ScriptCompiler.Proofs.Unit.Stacks
import ScriptCompiler.Proofs.Unit.Flow
import ScriptCompiler.Proofs.Target.Arena
import ScriptCompiler.Proofs.Frame.Basic
import ScriptCompiler.Proofs.Frame.Code
import ScriptCompiler.Proofs.Note.Joining
import ScriptCompiler.Proofs.Code.Cleanup
import ScriptCompiler.Proofs.Statement.Lookup
import ScriptCompiler.Proofs.Unit.ShortCircuits
import ScriptCompiler.Proofs.Script.Arms
import ScriptCompiler.Proofs.Script.Decoding
