import MipsBackend.Main
import MipsBackend.Directory
import MipsBackend.Tree.Encoder
import MipsBackend.Proofs.Colouring.Graph
import MipsBackend.Proofs.Colouring.Removal
import MipsBackend.Proofs.Colouring.Validity
import MipsBackend.Proofs.Flow.Edges
import MipsBackend.Proofs.Flow.Fixpoint
import MipsBackend.Proofs.Flow.Construction
import MipsBackend.Proofs.Flow.Liveness
import MipsBackend.Proofs.Colouring.Conflicts
import MipsBackend.Proofs.Colouring.Spilling
import MipsBackend.Proofs.Machine.Run
import MipsBackend.Proofs.Assignment.Expansion
import MipsBackend.Proofs.Assignment.Related
import MipsBackend.Proofs.Assignment.Traffic
import MipsBackend.Proofs.Machine.Renaming
import MipsBackend.Proofs.Assignment.Simulation
import MipsBackend.Proofs.Lowering.Bodies
import MipsBackend.Proofs.Lowering.Sections
import MipsBackend.Proofs.Assignment.Final
import MipsBackend.Proofs.Allocator
import MipsBackend.Proofs.Assignment.Outcome
import MipsBackend.Proofs.Calls.Slots
import MipsBackend.Proofs.Calls.Code
import MipsBackend.Proofs.Calls.Places
import MipsBackend.Proofs.Calls.Bytes
import MipsBackend.Proofs.Calls.Agreement
import MipsBackend.Proofs.Machine.Placement
import MipsBackend.Proofs.Machine.Execution
import MipsBackend.Proofs.Lowering.Composition
import MipsBackend.Proofs.Lowering.Pieces
import MipsBackend.Proofs.Lowering.Grammar
import MipsBackend.Proofs.Lowering.Labels
import MipsBackend.Proofs.Lowering.Balance
import MipsBackend.Proofs.Lowering.Levels
import MipsBackend.Proofs.Lowering.Depths
import MipsBackend.Proofs.Lowering.Starts
import MipsBackend.Proofs.Lowering.Functions
import MipsBackend.Proofs.Storage.Promotion
import MipsBackend.Proofs.Scalar.Semantics
import MipsBackend.Proofs.Scalar.Places
import MipsBackend.Proofs.Scalar.Operators
import MipsBackend.Proofs.Scalar.Evaluation
import MipsBackend.Proofs.Scalar.Expressions
import MipsBackend.Proofs.Scalar.Statements
import MipsBackend.Proofs.Scalar.Bodies
import MipsBackend.Proofs.Activation.Bodies
import MipsBackend.Proofs.Activation.Frames
import MipsBackend.Proofs.Activation.Layout
import MipsBackend.Proofs.Activation.StackDepth
import MipsBackend.Proofs.Activation.Transparency
import MipsBackend.Proofs.Flow.Exactness
import MipsBackend.Proofs.Colouring.Exactness
import MipsBackend.Proofs.Storage.FrameLayout
import MipsBackend.Proofs.Storage.Variables
import MipsBackend.Proofs.Linking
import MipsBackend.Proofs.Calls.Sites
import MipsBackend.Proofs.Calls.Resolution
import MipsBackend.Proofs.Calls.Results
import MipsBackend.Proofs.Storage.DataObjects
import MipsBackend.Proofs.WellFormed.Basic
import MipsBackend.Proofs.WellFormed.Extents
import MipsBackend.Proofs.WellFormed.Lowering
import MipsBackend.Proofs.Addressing.Denotation
import MipsBackend.Proofs.Addressing.Lowering
import MipsBackend.Proofs.Addressing.Places
import MipsBackend.Proofs.Addressing.Operands
import MipsBackend.Proofs.Json.RoundTrip
import MipsBackend.Proofs.Tree.RoundTrip
import MipsBackend.Proofs.Text.Reader
import MipsBackend.Proofs.Text.RoundTrip
import MipsBackend.Proofs.Temporaries.Reads
import MipsBackend.Proofs.Temporaries.Expressions
import MipsBackend.Proofs.Temporaries.Bodies
import MipsBackend.Proofs.Storage.Nesting
import MipsBackend.Proofs.Storage.Completeness
import MipsBackend.Proofs.Storage.StructLayout
import MipsBackend.Proofs.Assignment.Acceptance
import MipsBackend.Proofs.Flow.Order
import MipsBackend.Proofs.Assembly.Registers
import MipsBackend.Proofs.Copying.Bytes
import MipsBackend.Proofs.Copying.Structs
import MipsBackend.Proofs.Lowering.Literals
import MipsBackend.Proofs.Storage.Interning
import MipsBackend.Proofs.Colouring.Canonical
