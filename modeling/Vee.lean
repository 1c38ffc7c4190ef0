import Vee.Command.Arguments
import Vee.Command.Folder
import Vee.Command.Host
import Vee.Command.Path
import Vee.Command.Run
import Vee.CompileError
import Vee.Diagnostic
import Vee.Functions
import Vee.Grammar
import Vee.Listing
import Vee.Listing.Generate
import Vee.Log
import Vee.Machine
import Vee.Machine.Run
import Vee.Machine.Step
import Vee.Main
import Vee.Memory
import Vee.Opcode
import Vee.Program
import Vee.Program.Assembly
import Vee.Relocations
import Vee.Span
import Vee.Stack
import Vee.Stmt
import Vee.Stmt.Eval
import Vee.Stmt.OfTree
import Vee.Stmt.Scoped
import Vee.Stmt.Tokens
import Vee.Stmt.Walk
import Vee.Text.Blank
import Vee.Text.Lines
import Vee.Text.Utf8
import Vee.Token
import Vee.Token.File
import Vee.Token.Lexer
import Vee.Toolchain
import Vee.Tree
import Vee.Tree.Match
import Vee.Tree.Plain
import Vee.Variables
import Vee.Word
import Vee.Proofs.Machine.Action
import Vee.Proofs.Machine.Instruction
import Vee.Proofs.Machine.Frame
import Vee.Proofs.Simulation.Follow
import Vee.Proofs.Simulation.Growth
import Vee.Proofs.Code.Names
import Vee.Proofs.Code.Variables
import Vee.Proofs.Code.Emission
import Vee.Proofs.Code.Instructions
import Vee.Proofs.Code.Layout
import Vee.Proofs.Simulation.Expression
import Vee.Proofs.Simulation.Statement
import Vee.Proofs.Machine.Outcome
import Vee.Proofs.Simulation.Correctness
import Vee.Proofs.Parsing.Derivation
import Vee.Proofs.Parsing.Nesting
import Vee.Proofs.Parsing.Boundary
import Vee.Proofs.Parsing.Recognition
import Vee.Proofs.Parsing.Precedence
import Vee.Proofs.Parsing.RoundTrip
import Vee.Proofs.Code.Balance
import Vee.Proofs.Code.Sections
import Vee.Proofs.Command.Files
import Vee.Proofs.Command.Stages
import Vee.Proofs.Machine.Activations
import Vee.Proofs.Machine.Discipline
import Vee.Proofs.Parsing.Refinement
import Vee.Proofs.Machine.Slicing
import Vee.Proofs.Machine.Bounds
import Vee.Proofs.Code.Acceptance
import Vee.Proofs.Machine.Surplus
import Vee.Proofs.Text.Lexing
import Vee.Proofs.Parsing.Shapes
import Vee.Proofs.Text.Disassembly
import Vee.Proofs.Text.Listing
import Vee.Proofs.Code.Slots
import Vee.Proofs.Machine.Failure
import Vee.Proofs.Code.Renaming
import Vee.Proofs.Code.Extension
import Vee.Proofs.Simulation.Lockstep
import Vee.Proofs.Parsing.Columns
import Vee.Proofs.Machine.Arithmetic
import Vee.Proofs.Code.Table
import Vee.Proofs.Code.Blame
import Vee.Proofs.Code.Reporting
import Vee.Proofs.Parsing.Extents
import Vee.Proofs.Code.Patching
