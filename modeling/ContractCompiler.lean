import ContractCompiler.Main
import ContractCompiler.Proofs.Lowering.Layout
import ContractCompiler.Proofs.Lowering.Emission
import ContractCompiler.Proofs.Lowering.Operations
import ContractCompiler.Proofs.Syntax.Descendants
import ContractCompiler.Proofs.Typing.Acceptance
import ContractCompiler.Proofs.Typing.Scoping
import ContractCompiler.Proofs.Lowering.Places
import ContractCompiler.Proofs.Syntax.IntegerFragment
import ContractCompiler.Proofs.Lowering.Agreement
import ContractCompiler.Proofs.Lowering.Expressions
import ContractCompiler.Proofs.Lowering.Blocks
import ContractCompiler.Proofs.Lowering.Control
import ContractCompiler.Proofs.Lowering.Statements
import ContractCompiler.Proofs.Lowering.Reachability
import ContractCompiler.Proofs.Lowering.Functions
import ContractCompiler.Proofs.Lowering.Labels
import ContractCompiler.Proofs.Lowering.Programs
import ContractCompiler.Proofs.Assembly.Depth
import ContractCompiler.Proofs.Lowering.Depths
import ContractCompiler.Proofs.Assembly.Machine
import ContractCompiler.Proofs.Semantics.Evaluation
import ContractCompiler.Proofs.Semantics.Following
import ContractCompiler.Proofs.Semantics.Expressions
import ContractCompiler.Proofs.Semantics.Statements
import ContractCompiler.Proofs.Typing.Notes
import ContractCompiler.Proofs.Typing.IntegerTypes
import ContractCompiler.Proofs.Semantics.Programs
import ContractCompiler.Proofs.Lowering.Sites
import ContractCompiler.Proofs.Lowering.Occurrences
import ContractCompiler.Proofs.Lowering.Resolution
import ContractCompiler.Proofs.Lowering.StackTypes
import ContractCompiler.Proofs.Assembly.Cells
import ContractCompiler.Proofs.Typing.Pending
import ContractCompiler.Proofs.Lowering.Settled
import ContractCompiler.Proofs.Assembly.Lines
import ContractCompiler.Proofs.Lowering.Formatting
import ContractCompiler.Proofs.Lowering.Lines
import ContractCompiler.Proofs.Lowering.Progress
import ContractCompiler.Proofs.Token.Joining
import ContractCompiler.Proofs.Lowering.Pairing
import ContractCompiler.Proofs.Lowering.Versions
import ContractCompiler.Proofs.Typing.Modularity
import ContractCompiler.Proofs.Typing.Modes
import ContractCompiler.Proofs.Typing.Hierarchy
import ContractCompiler.Proofs.Lowering.Entries
import ContractCompiler.Proofs.Semantics.Selection
import ContractCompiler.Proofs.Lowering.Operands
import ContractCompiler.Proofs.Lowering.LabelGraph
import ContractCompiler.Proofs.Lowering.FailureSites
import ContractCompiler.Proofs.Lowering.Pruning
import ContractCompiler.Proofs.Lowering.CallOrder
import ContractCompiler.Proofs.Text.Definitions
import ContractCompiler.Proofs.Syntax.RoundTrip
import ContractCompiler.Proofs.Syntax.SpanTree
import ContractCompiler.Proofs.Syntax.Extracts
import ContractCompiler.Proofs.Assembly.InPlace
import ContractCompiler.Proofs.Syntax.Literals
import ContractCompiler.Proofs.Syntax.BalancedReading
import ContractCompiler.Proofs.Assembly.Described
import ContractCompiler.Proofs.Lowering.SlotAccess
import ContractCompiler.Proofs.Lowering.Metrics
import ContractCompiler.Proofs.Syntax.Preorder
import ContractCompiler.Proofs.Typing.Nesting
import ContractCompiler.Proofs.Text.Positions
