import SsaForm.Code.Block
import SsaForm.Code.Function
import SsaForm.Fault
import SsaForm.Relation.Basic

/-!
# Control flow graphs

A graph holds the signature of a function and its blocks in layout order; the first
block is the entry. An index tells where the block with a name stands. Edges lead from a
block to the labels that its last instruction may go on at.
-/

namespace SsaForm

structure FlowGraph where
  name : String
  params : List Param
  result : Option Ty
  blocks : List Block
  index : Table String Nat
deriving DecidableEq

structure Edges where
  successors : Relation String
  predecessors : Relation String

namespace Edges

def between (names : List String) : Edges :=
  let unrelated : Relation String := KeySet.tabulate (.ofList names) fun _ => ∅
  ⟨unrelated, unrelated⟩

/-- One edge more, in both directions. An edge to a label that no block bears is refused. -/
def add (edges : Edges) (source target : String) : Except Fault Edges :=
  if target ∈ edges.predecessors then
    .ok ⟨edges.successors.relate source target, edges.predecessors.relate target source⟩
  else
    .error (.danglingEdge source target)

end Edges

def Block.successors (b : Block) : KeySet String :=
  .ofList b.targets

namespace FlowGraph

def names (g : FlowGraph) : List String :=
  g.blocks.map Block.name

def entry? (g : FlowGraph) : Option String :=
  g.names.head?

def position? (g : FlowGraph) (name : String) : Option Nat :=
  g.index[name]?

def block? (g : FlowGraph) (name : String) : Option Block :=
  (g.position? name).bind fun i => g.blocks[i]?

def successorSet? (g : FlowGraph) (name : String) : Option (KeySet String) :=
  (g.block? name).map Block.successors

/-- The edges that leave a block; none if there is no such block. -/
def outgoing (g : FlowGraph) (name : String) : List Edge :=
  ((g.block? name).map Block.edges).getD []

/-- The first label in layout order that a block goes on at and that is not indexed, with
the block. -/
def dangling? (g : FlowGraph) : Option (String × String) :=
  g.blocks.findSome? fun b =>
    (b.targets.find? fun target => target ∉ g.index).map fun target => (b.name, target)

def successors (g : FlowGraph) : Relation String :=
  .ofList (g.blocks.map fun b => (b.name, b.successors))

def predecessors (g : FlowGraph) : Relation String :=
  KeySet.tabulate (.ofList g.names) fun name =>
    .ofList ((g.blocks.filter fun b => name ∈ b.targets).map Block.name)

/-- The blocks with the labels that they go on at, in layout order and with repetitions. -/
def links (g : FlowGraph) : List (String × String) :=
  g.blocks.flatMap fun b => b.targets.map fun target => (b.name, target)

/-- The edges, collected one after the other, unless one of them leads nowhere. -/
def edges (g : FlowGraph) : Except Fault Edges :=
  g.links.foldlM (fun edges link => edges.add link.1 link.2) (.between g.names)

/-- The blocks as a function body, each behind its label. -/
def laidOut (blocks : List Block) : List Item :=
  blocks.flatMap fun b => .label b.name :: b.instrs.map .instr

def body (g : FlowGraph) : List Item :=
  laidOut g.blocks

def toFunction (g : FlowGraph) : Function :=
  { name := g.name, params := g.params, result := g.result, body := g.body }

def text (g : FlowGraph) : String :=
  String.join (g.blocks.map Block.text)

def agrees (g h : FlowGraph) : Bool :=
  decide ({ g with blocks := [] } = { h with blocks := [] }) && g.blocks.isEqv h.blocks Block.agrees

def definitionsIn (blocks : List Block) : Relation String :=
  KeySet.tabulate (.ofList (blocks.flatMap Block.assigned)) fun var =>
    .ofList ((blocks.filter fun b => var ∈ b.assigned).map Block.name)

def definitions (g : FlowGraph) : Relation String :=
  definitionsIn g.blocks

/-- The type of every variable that is declared with one. Parameters are declared first,
then the assignments in layout order; the last declaration counts. -/
def declaredTypes (g : FlowGraph) : Table String Ty :=
  .ofList (g.params.map (fun p => (p.name, p.ty)) ++
    g.blocks.flatMap fun b => b.instrs.filterMap fun i =>
      match i.dest, i.ty with
      | some dest, some ty => some (dest, ty)
      | _, _ => none)

end FlowGraph

end SsaForm
