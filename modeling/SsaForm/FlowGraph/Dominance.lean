import SsaForm.Dominance.Frontier
import SsaForm.Dominance.Tree
import SsaForm.Event
import SsaForm.FlowGraph.Basic

/-!
# Dominance of blocks

Dominance is solved over all blocks; frontiers and the tree are taken over the blocks
that the entry reaches.
-/

namespace SsaForm.FlowGraph

/-- The blocks that the entry reaches along given edges. -/
def liveBlocks (g : FlowGraph) (edges : Edges) : KeySet String :=
  match g.entry? with
  | some entry => edges.successors.reachable entry
  | none => ∅

/-- The dominator sets of all blocks along given edges. A graph without blocks has none. -/
def solveDominance (g : FlowGraph) (edges : Edges) : Dominance.Solution String :=
  match g.entry? with
  | some entry => Dominance.solve g.names edges.successors edges.predecessors entry
  | none => ⟨∅, none, true⟩

def liveDominators (g : FlowGraph) (edges : Edges) : Relation String :=
  (g.solveDominance edges).sets.restrict (g.liveBlocks edges)

def liveSuccessors (g : FlowGraph) (edges : Edges) : Relation String :=
  edges.successors.restrict (g.liveBlocks edges)

def reachable (g : FlowGraph) : Except Fault (KeySet String) :=
  g.edges.map g.liveBlocks

def dominators (g : FlowGraph) : Except Fault (Relation String) :=
  g.edges.map fun edges => (g.solveDominance edges).sets

def dominated (g : FlowGraph) : Except Fault (Relation String) :=
  g.dominators.map Relation.converse

def dominanceFrontiers (g : FlowGraph) : Except Fault (Relation String) :=
  g.edges.map fun edges => frontiers (g.liveDominators edges) (g.liveSuccessors edges)

def dominatorTree (g : FlowGraph) : Except Fault (Relation String) :=
  g.edges.map fun edges => SsaForm.dominatorTree (g.liveDominators edges)

def dominanceEvents (g : FlowGraph) : List Event :=
  match g.edges with
  | .ok edges => (g.solveDominance edges).events
  | .error _ => []

end SsaForm.FlowGraph
