import SsaForm.FlowGraph.Construction
import SsaForm.FlowGraph.Dominance
import SsaForm.Phi.Placement
import SsaForm.Renaming.Walk

/-!
# Conversion to single assignment

Merges are placed on iterated frontiers, variables are renamed along the dominator tree,
and the merges are written into their blocks. Only blocks that the entry reaches take
part.
-/

namespace SsaForm

namespace FlowGraph

/-- What the conversion of a graph has to know about its edges. -/
structure Survey where
  live : KeySet String
  successors : Relation String
  frontiers : Relation String
  tree : Relation String
  definitions : Relation String
  phis : Relation String

def survey (g : FlowGraph) (edges : Edges) : Survey :=
  let live := g.liveBlocks edges
  let dominators := g.liveDominators edges
  let successors := g.liveSuccessors edges
  let frontiers := SsaForm.frontiers dominators successors
  let definitions := definitionsIn (g.blocks.filter fun b => b.name ∈ live)
  { live, successors, frontiers
    tree := SsaForm.dominatorTree dominators
    definitions
    phis := Phi.place definitions frontiers }

/-- What converting a graph came to. After a fault the graph is left with the blocks that
were renamed before it. -/
structure Converted where
  graph : FlowGraph
  fault? : Option Fault
  events : List Event

/-- Converts the blocks that the entry reaches. A graph without blocks is left as it is. -/
def convert (g : FlowGraph) (config : Config) : Converted :=
  match g.entry? with
  | none => ⟨g, none, []⟩
  | some entry =>
    match g.edges with
    | .error fault => ⟨g, some fault, []⟩
    | .ok edges =>
      let survey := g.survey edges
      let types := g.declaredTypes
      let renamed := rename config survey.phis survey.successors survey.tree entry
        (g.params.map Param.name) g.blocks
      let events := (g.solveDominance edges).events ++
        Phi.placementEvents survey.definitions survey.frontiers ++ renamed.events
      match renamed.outcome with
      | .error fault => ⟨{ g with blocks := renamed.blocks }, some fault, events⟩
      | .ok tables =>
        let inserted := Phi.insertedCount tables types renamed.blocks
        ⟨{ g with blocks := Phi.insert tables types renamed.blocks }, none,
          events ++ [.functionConverted g.name g.blocks.length survey.live.size
            survey.definitions.size inserted]⟩

def toSsa (g : FlowGraph) (config : Config) : Except Fault FlowGraph :=
  let converted := g.convert config
  match converted.fault? with
  | some fault => .error fault
  | none => .ok converted.graph

end FlowGraph

/-- Converts a function: builds its graph, converts the graph and lays it out again. -/
def Function.toSsa (f : Function) (config : Config) : Except Fault Function := do
  let graph ← FlowGraph.ofFunction f config.checkLabels
  let converted ← graph.toSsa config
  return converted.toFunction

def Function.conversionEvents (f : Function) (config : Config) : List Event :=
  match FlowGraph.build f config.checkLabels with
  | .error _ => []
  | .ok construction => construction.event :: (construction.graph.convert config).events

/-- Converts the functions of a program in order; the first fault prevents the rest. -/
def Program.toSsa (p : Program) (config : Config) : Except Fault Program := do
  let functions ← p.functions.mapM fun f => f.toSsa config
  return { functions }

/-- What the conversion of functions one after the other reports, up to the first that has
a fault. -/
def conversionEvents (config : Config) : List Function → List Event
  | [] => []
  | f :: rest =>
    f.conversionEvents config ++
      match f.toSsa config with
      | .ok _ => conversionEvents config rest
      | .error _ => []

/-- What the conversion of a program reports. Functions that are converted side by side
report nothing themselves. -/
def Program.conversionEvents (p : Program) (config : Config) (parallel : Bool) : List Event :=
  let ofFunctions := if parallel then [] else SsaForm.conversionEvents config p.functions
  match p.toSsa config with
  | .error _ => ofFunctions
  | .ok converted =>
    ofFunctions ++ [if parallel then .programConvertedInParallel converted.functions.length
      else .programConverted converted.functions.length]

end SsaForm
