import SlotCompiler.Code.Instr
import SlotCompiler.Code.Machine
import SlotCompiler.Code.Text
import SlotCompiler.File.Basic
import SlotCompiler.File.Command
import SlotCompiler.File.Path
import SlotCompiler.File.Store
import SlotCompiler.Listing
import SlotCompiler.Lowering.Draft
import SlotCompiler.Lowering.Expr
import SlotCompiler.Lowering.Lines
import SlotCompiler.Lowering.Postfix
import SlotCompiler.Main
import SlotCompiler.Program.Basic
import SlotCompiler.Program.Expr
import SlotCompiler.Proofs.Acceptance
import SlotCompiler.Proofs.Alternation
import SlotCompiler.Proofs.Blame
import SlotCompiler.Proofs.Consistency
import SlotCompiler.Proofs.Cursor
import SlotCompiler.Proofs.Cutting
import SlotCompiler.Proofs.Definedness
import SlotCompiler.Proofs.Delimiters
import SlotCompiler.Proofs.Descent
import SlotCompiler.Proofs.Evaluation
import SlotCompiler.Proofs.Execution
import SlotCompiler.Proofs.Extraction
import SlotCompiler.Proofs.Files
import SlotCompiler.Proofs.Formatting
import SlotCompiler.Proofs.Groups
import SlotCompiler.Proofs.Growth
import SlotCompiler.Proofs.Hoisting
import SlotCompiler.Proofs.Interruption
import SlotCompiler.Proofs.Layout
import SlotCompiler.Proofs.Lexing
import SlotCompiler.Proofs.LineBreaks
import SlotCompiler.Proofs.Linkage
import SlotCompiler.Proofs.Lockstep
import SlotCompiler.Proofs.Matching
import SlotCompiler.Proofs.ModuleText
import SlotCompiler.Proofs.Naming
import SlotCompiler.Proofs.Nesting
import SlotCompiler.Proofs.Numbering
import SlotCompiler.Proofs.Paths
import SlotCompiler.Proofs.Positions
import SlotCompiler.Proofs.Preservation
import SlotCompiler.Proofs.Renaming
import SlotCompiler.Proofs.Renumbering
import SlotCompiler.Proofs.Reordering
import SlotCompiler.Proofs.Segmentation
import SlotCompiler.Proofs.Sequencing
import SlotCompiler.Proofs.Shunting
import SlotCompiler.Proofs.Simulation
import SlotCompiler.Proofs.Spacing
import SlotCompiler.Proofs.Spelling
import SlotCompiler.Proofs.Unclosed
import SlotCompiler.Proofs.Wrapping
import SlotCompiler.Source.Blank
import SlotCompiler.Source.Block
import SlotCompiler.Source.Form
import SlotCompiler.Source.Group
import SlotCompiler.Source.Line
import SlotCompiler.Source.SyntaxError
import SlotCompiler.Source.Token
