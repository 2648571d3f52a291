import BytecodeFlow.Analysis
import BytecodeFlow.Assembly.Listing
import BytecodeFlow.Assembly.Operand
import BytecodeFlow.Assembly.Statement
import BytecodeFlow.BlockSort
import BytecodeFlow.ClassFile
import BytecodeFlow.CommandLine.Command
import BytecodeFlow.CommandLine.Flag
import BytecodeFlow.CommandLine.Run
import BytecodeFlow.Dependency
import BytecodeFlow.Descriptor
import BytecodeFlow.Effect
import BytecodeFlow.Event
import BytecodeFlow.Exploration.Explore
import BytecodeFlow.Exploration.Step
import BytecodeFlow.Fixture
import BytecodeFlow.Frame
import BytecodeFlow.Graph
import BytecodeFlow.History
import BytecodeFlow.Instruction
import BytecodeFlow.Loading
import BytecodeFlow.Main
import BytecodeFlow.Method
import BytecodeFlow.Opcode
import BytecodeFlow.Operation
import BytecodeFlow.OrderedSet
import BytecodeFlow.Report
import BytecodeFlow.Successors
import BytecodeFlow.Text.Basic
import BytecodeFlow.Text.Number
import BytecodeFlow.Text.Quoted
import BytecodeFlow.ValueType
import BytecodeFlow.Yaml.Cursor
import BytecodeFlow.Yaml.Document
import BytecodeFlow.Yaml.Literal
import BytecodeFlow.Yaml.Scalar
import BytecodeFlow.Yaml.Token
import BytecodeFlow.Yaml.Tokens
import BytecodeFlow.Yaml.Value
import BytecodeFlow.Proofs.Assembly.Draft
import BytecodeFlow.Proofs.Assembly.Layout
import BytecodeFlow.Proofs.Assembly.Locals
import BytecodeFlow.Proofs.Assembly.Members
import BytecodeFlow.Proofs.Defects
import BytecodeFlow.Proofs.Dependencies
import BytecodeFlow.Proofs.Descriptor.Grammar
import BytecodeFlow.Proofs.Descriptor.RoundTrip
import BytecodeFlow.Proofs.Effect
import BytecodeFlow.Proofs.Except
import BytecodeFlow.Proofs.Execution
import BytecodeFlow.Proofs.Exploration.Accounting
import BytecodeFlow.Proofs.Exploration.Calls
import BytecodeFlow.Proofs.Exploration.DeadCode
import BytecodeFlow.Proofs.Exploration.Drained
import BytecodeFlow.Proofs.Exploration.Ends
import BytecodeFlow.Proofs.Exploration.Invariants
import BytecodeFlow.Proofs.Exploration.Lineage
import BytecodeFlow.Proofs.Exploration.NodeWords
import BytecodeFlow.Proofs.Exploration.NullReceivers
import BytecodeFlow.Proofs.Exploration.Outcome
import BytecodeFlow.Proofs.Exploration.Partition
import BytecodeFlow.Proofs.Exploration.Paths
import BytecodeFlow.Proofs.Exploration.Safety
import BytecodeFlow.Proofs.Exploration.Step
import BytecodeFlow.Proofs.Exploration.Termination
import BytecodeFlow.Proofs.Exploration.Tiers
import BytecodeFlow.Proofs.Exploration.Turn
import BytecodeFlow.Proofs.Exploration.Turns
import BytecodeFlow.Proofs.Exploration.VisitorContract
import BytecodeFlow.Proofs.Failures
import BytecodeFlow.Proofs.Graph.Acceptance
import BytecodeFlow.Proofs.Graph.Closure
import BytecodeFlow.Proofs.Graph.EdgeOrder
import BytecodeFlow.Proofs.Graph.Edges
import BytecodeFlow.Proofs.Graph.Insertion
import BytecodeFlow.Proofs.Graph.Layout
import BytecodeFlow.Proofs.Graph.PredecessorRun
import BytecodeFlow.Proofs.Graph.Reachability
import BytecodeFlow.Proofs.Graph.SameLine
import BytecodeFlow.Proofs.Graph.WellFormed
import BytecodeFlow.Proofs.History
import BytecodeFlow.Proofs.History.Room
import BytecodeFlow.Proofs.Locality
import BytecodeFlow.Proofs.Machine.Describes
import BytecodeFlow.Proofs.Machine.Semantics
import BytecodeFlow.Proofs.Machine.Simulation
import BytecodeFlow.Proofs.Pointwise
import BytecodeFlow.Proofs.Provenance
import BytecodeFlow.Proofs.Receivers
import BytecodeFlow.Proofs.StackWords
import BytecodeFlow.Proofs.StartFrame
import BytecodeFlow.Proofs.TwoSlots
import BytecodeFlow.Proofs.Widening
