import RegisterMachine.Main
import RegisterMachine.Trace.Sink
import RegisterMachine.Proofs.Assembly.Layout
import RegisterMachine.Proofs.Machine.Budget
import RegisterMachine.Proofs.Machine.Fault
import RegisterMachine.Proofs.Text.Numeral
import RegisterMachine.Proofs.Text.Split
import RegisterMachine.Proofs.Assembly.Operand
import RegisterMachine.Proofs.Assembly.Reading
import RegisterMachine.Proofs.Instruction.Decoding
import RegisterMachine.Proofs.Listing.Rows
import RegisterMachine.Proofs.Listing.Labels
import RegisterMachine.Proofs.Assembly.Instruction
import RegisterMachine.Proofs.Assembly.Sweep
import RegisterMachine.Proofs.Assembly.AddressSpace
import RegisterMachine.Proofs.Assembly.Acceptance
import RegisterMachine.Proofs.Assembly.Spelling
import RegisterMachine.Proofs.Assembly.Literal
import RegisterMachine.Proofs.Assembly.Editing
import RegisterMachine.Proofs.Listing.Source
import RegisterMachine.Proofs.Listing.Reassembly
import RegisterMachine.Proofs.Listing.Stream
import RegisterMachine.Proofs.Listing.Execution
import RegisterMachine.Proofs.Machine.Access
import RegisterMachine.Proofs.Machine.Effect
import RegisterMachine.Proofs.Machine.Indexing
import RegisterMachine.Proofs.Machine.Run
import RegisterMachine.Proofs.Machine.Step
import RegisterMachine.Proofs.Machine.Sandbox
import RegisterMachine.Proofs.Machine.View
import RegisterMachine.Proofs.Trace.Invisibility
import RegisterMachine.Proofs.Trace.Log
import RegisterMachine.Proofs.Trace.Replay
import RegisterMachine.Proofs.Machine.Frame
import RegisterMachine.Proofs.Machine.Subroutine
import RegisterMachine.Proofs.Machine.Dispatch
import RegisterMachine.Proofs.Machine.Reuse
import RegisterMachine.Proofs.Machine.Counter
import RegisterMachine.Proofs.Machine.Slot
import RegisterMachine.Proofs.Machine.Console
import RegisterMachine.Proofs.CommandLine.Arguments
import RegisterMachine.Proofs.CommandLine.Session
import RegisterMachine.Proofs.CommandLine.Status
import RegisterMachine.Proofs.Listing.Program
import RegisterMachine.Proofs.Machine.World
import RegisterMachine.Proofs.Trace.Lines
import RegisterMachine.Proofs.CommandLine.Interchange
import RegisterMachine.Proofs.HexText
import RegisterMachine.Proofs.LabelTable
import RegisterMachine.Proofs.Assembly.Labels
import RegisterMachine.Proofs.CommandLine.Outputs
import RegisterMachine.Proofs.Instruction.Verdict
import RegisterMachine.Proofs.Assembly.Display
import RegisterMachine.Proofs.Listing.Lines
import RegisterMachine.Proofs.Listing.Text
import RegisterMachine.Proofs.Listing.Tiling
import RegisterMachine.Proofs.Listing.Targets
import RegisterMachine.Proofs.Machine.Comparison
import RegisterMachine.Proofs.Machine.Stack
import RegisterMachine.Proofs.Machine.Immediate
import RegisterMachine.Proofs.LabelLine
import RegisterMachine.Proofs.LabelText
import RegisterMachine.Proofs.HexRuns
import RegisterMachine.Proofs.Listing.UsedLabels
import RegisterMachine.Proofs.Assembly.Slot
import RegisterMachine.Proofs.Palette
import RegisterMachine.Proofs.Colours
import RegisterMachine.Proofs.Trace.Refusal
import RegisterMachine.Proofs.Machine.Bytes
