import ChipEight.Machine.Run
import ChipEight.Main
import ChipEight.Proofs.Classic.Refinement
import ChipEight.Proofs.Machine.Locality
import ChipEight.Proofs.Machine.Mirror
import ChipEight.Proofs.Machine.Redraw
import ChipEight.Proofs.Machine.Refusal
import ChipEight.Proofs.Machine.StraightLine
import ChipEight.Proofs.Machine.Subroutine
import ChipEight.Proofs.Machine.LastWrite
import ChipEight.Proofs.Machine.Restart
import ChipEight.Proofs.Machine.Randomness
import ChipEight.Proofs.Machine.Timing
import ChipEight.Proofs.Machine.Keys
import ChipEight.Proofs.Machine.Waiting
import ChipEight.Proofs.Session.Endings
import ChipEight.Proofs.Trapping.Arithmetic
import ChipEight.Proofs.Trapping.Drawing
import ChipEight.Proofs.Trapping.Operations
import ChipEight.Proofs.Trapping.Safety
import ChipEight.Proofs.Instruction.Arithmetic
import ChipEight.Proofs.Instruction.Drawing
import ChipEight.Proofs.Instruction.Frame
import ChipEight.Proofs.Machine.ControlFlow
import ChipEight.Proofs.Instruction.Transfer
import ChipEight.Proofs.Machine.Delay
import ChipEight.Proofs.Machine.Glyphs
import ChipEight.Proofs.Text.Messages
import ChipEight.Proofs.Text.Records
import ChipEight.Proofs.Machine.Trace
import ChipEight.Proofs.CommandLine.Spelling
import ChipEight.Proofs.Window.Shot
