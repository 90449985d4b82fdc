import SsaForm.Binary64.Basic
import SsaForm.Binary64.Rounding
import SsaForm.Binary64.Shortest
import SsaForm.Binary64.Text
import SsaForm.Code.Block
import SsaForm.Code.Decoding
import SsaForm.Code.Encoding
import SsaForm.Code.Function
import SsaForm.Code.Instr
import SsaForm.Code.Literal
import SsaForm.Code.Ty
import SsaForm.Config
import SsaForm.Conversion
import SsaForm.Dominance.Frontier
import SsaForm.Dominance.Solution
import SsaForm.Dominance.Tree
import SsaForm.Event
import SsaForm.Fault
import SsaForm.FlowGraph.Basic
import SsaForm.FlowGraph.Construction
import SsaForm.FlowGraph.Dominance
import SsaForm.FlowGraph.Dot
import SsaForm.FlowGraph.Run
import SsaForm.FreshName
import SsaForm.Json.Basic
import SsaForm.Json.Printer
import SsaForm.Json.Reader
import SsaForm.Json.Token
import SsaForm.KeySet
import SsaForm.Phi.Insertion
import SsaForm.Phi.Placement
import SsaForm.Proofs.Code.RoundTrip
import SsaForm.Proofs.Conversion.Agreement
import SsaForm.Proofs.Conversion.Basic
import SsaForm.Proofs.Conversion.Capture
import SsaForm.Proofs.Conversion.DeadCode
import SsaForm.Proofs.Conversion.Definitions
import SsaForm.Proofs.Conversion.Faults
import SsaForm.Proofs.Conversion.Frame
import SsaForm.Proofs.Conversion.Invariant
import SsaForm.Proofs.Conversion.JoinPoints
import SsaForm.Proofs.Conversion.Numbering
import SsaForm.Proofs.Conversion.Operands
import SsaForm.Proofs.Conversion.Policies
import SsaForm.Proofs.Conversion.Reaching
import SsaForm.Proofs.Conversion.Reassembly
import SsaForm.Proofs.Conversion.Scope
import SsaForm.Proofs.Conversion.Simulation
import SsaForm.Proofs.Conversion.Survey
import SsaForm.Proofs.Conversion.UseDominance
import SsaForm.Proofs.Dominance.Basic
import SsaForm.Proofs.Dominance.Convergence
import SsaForm.Proofs.Dominance.Correctness
import SsaForm.Proofs.Dominance.Greatest
import SsaForm.Proofs.Dominance.Settling
import SsaForm.Proofs.Dominance.Solution
import SsaForm.Proofs.Dominance.Tree
import SsaForm.Proofs.Execution
import SsaForm.Proofs.FlowGraph.Completion
import SsaForm.Proofs.FlowGraph.Dominance
import SsaForm.Proofs.FlowGraph.DominatorTree
import SsaForm.Proofs.FlowGraph.Drawing
import SsaForm.Proofs.FlowGraph.Edges
import SsaForm.Proofs.FlowGraph.FreshNames
import SsaForm.Proofs.FlowGraph.Frontiers
import SsaForm.Proofs.FlowGraph.Index
import SsaForm.Proofs.FlowGraph.Labels
import SsaForm.Proofs.FlowGraph.Layout
import SsaForm.Proofs.FlowGraph.Outgoing
import SsaForm.Proofs.FlowGraph.Reassembly
import SsaForm.Proofs.FlowGraph.Stepping
import SsaForm.Proofs.FlowGraph.WellFormed
import SsaForm.Proofs.Naming
import SsaForm.Proofs.Phi.Insertion
import SsaForm.Proofs.Phi.Placement
import SsaForm.Proofs.Relation.Basic
import SsaForm.Proofs.Relation.Path
import SsaForm.Proofs.Relation.Reachability
import SsaForm.Proofs.Renaming.Descent
import SsaForm.Proofs.Renaming.Recursion
import SsaForm.Proofs.Renaming.Shape
import SsaForm.Proofs.Renaming.Sites
import SsaForm.Proofs.Renaming.Stopping
import SsaForm.Proofs.Renaming.Tree
import SsaForm.Proofs.Renaming.Versions
import SsaForm.Relation.Basic
import SsaForm.Relation.NodeKey
import SsaForm.Relation.Postorder
import SsaForm.Renaming.Tree
import SsaForm.Renaming.Versions
import SsaForm.Renaming.Walk
