import TinyAsm.Interpret
import TinyAsm.Image.Decode
import TinyAsm.CommandLine.Report
import TinyAsm.Main
import TinyAsm.Proofs.Machine.Effect
import TinyAsm.Proofs.Machine.Turn
import TinyAsm.Proofs.Program.Lines
import TinyAsm.Proofs.Walk.Basic
import TinyAsm.Proofs.Except
import TinyAsm.Proofs.Walk.Simulation
import TinyAsm.Proofs.Machine.Pointer
import TinyAsm.Proofs.Image.Layout
import TinyAsm.Proofs.Image.Reader
import TinyAsm.Proofs.Image.RoundTrip
import TinyAsm.Proofs.Machine.Resume
import TinyAsm.Proofs.Machine.History
import TinyAsm.Proofs.Machine.Fault
import TinyAsm.Proofs.Machine.Brackets
import TinyAsm.Proofs.Machine.Calls
import TinyAsm.Proofs.Source.Item
import TinyAsm.Proofs.Source.Line
import TinyAsm.Proofs.Source.Statement
import TinyAsm.Proofs.Instruction.Printer
import TinyAsm.Proofs.Program.Listing
import TinyAsm.Proofs.Program.Range
import TinyAsm.Proofs.Program.Size
import TinyAsm.Proofs.Image.Build
import TinyAsm.Proofs.Program.Append
import TinyAsm.Proofs.Machine.LastWriter
import TinyAsm.Proofs.Machine.Cause
import TinyAsm.Proofs.Machine.Renaming
import TinyAsm.Proofs.Machine.Budget
import TinyAsm.Proofs.Machine.Failure
import TinyAsm.Proofs.Program.Rejection
import TinyAsm.Proofs.Image.Truncation
import TinyAsm.Proofs.Word
import TinyAsm.Proofs.Machine.Arithmetic
import TinyAsm.Proofs.Operand
import TinyAsm.Proofs.Source.Grammar
import TinyAsm.Proofs.Program.Lexical
import TinyAsm.Proofs.Machine.Trace
import TinyAsm.Proofs.Program.Layout
import TinyAsm.Proofs.CommandLine.Flags
import TinyAsm.Proofs.CommandLine.FileTree
import TinyAsm.Proofs.CommandLine.ImagePath
import TinyAsm.Proofs.Source.Tiling
