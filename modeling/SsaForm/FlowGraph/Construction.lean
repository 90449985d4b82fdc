import SsaForm.Config
import SsaForm.Event
import SsaForm.FlowGraph.Basic
import SsaForm.FlowGraph.Run
import SsaForm.FreshName

/-!
# Building a graph

Every run of a body becomes a block. Runs without a label get a fresh name, a block that
is jumped to is not left in the first place, and a block that control falls out of goes
on to the next one or returns.
-/

namespace SsaForm.FlowGraph

def itemLabels : Item → List String
  | .label name => [name]
  | .instr i => i.labels

def bodyLabels (body : List Item) : KeySet String :=
  .ofList (body.flatMap itemLabels)

/-- Makes a block of every run. A run without a label is called `bb1`, `bb2` and so on,
past the names in use. -/
def nameRuns (used : KeySet String) : List Run → List Block
  | [] => []
  | ⟨some name, instrs⟩ :: rest => ⟨name, instrs⟩ :: nameRuns used rest
  | ⟨none, instrs⟩ :: rest =>
    let name := freshName "bb" used
    ⟨name, instrs⟩ :: nameRuns (used.insert name) rest

def empty (f : Function) : FlowGraph :=
  { name := f.name, params := f.params, result := f.result, blocks := [], index := ∅ }

def push (g : FlowGraph) (b : Block) : FlowGraph :=
  { g with
    blocks := g.blocks ++ [b]
    index := g.index.insert b.name g.blocks.length }

/-- One block more, behind the others. A name that is indexed already is refused. -/
def add (g : FlowGraph) (b : Block) : Except Fault FlowGraph :=
  if b.name ∈ g.index then .error (.repeatedLabel b.name) else .ok (g.push b)

def reindex (g : FlowGraph) : FlowGraph :=
  { g with index := .ofList g.names.zipIdx }

def entryMentioned (blocks : List Block) : Bool :=
  match blocks with
  | [] => false
  | first :: _ => blocks.any fun b => b.instrs.any fun i => first.name ∈ i.labels

/-- Puts an empty block in the first place if the first block is mentioned. It is called
`entry1`, `entry2` and so on, past the names in use. -/
def withEntry (used : KeySet String) (g : FlowGraph) : FlowGraph :=
  if entryMentioned g.blocks then
    -- Every block moves, so no position in the index is still right.
    reindex
      { g with blocks := ⟨freshName "entry" (used ∪ .ofList g.names), []⟩ :: g.blocks }
  else
    g

/-- The block with an instruction at its end, unless it ends with a terminator. -/
def endWith (b : Block) (i : Instr) : Block :=
  if b.terminator?.isSome then b else { b with instrs := b.instrs ++ [i] }

/-- Makes control leave every block by a terminator: to the next block, or out of the
function behind the last one. -/
def closeBlocks : List Block → List Block
  | [] => []
  | [b] => [endWith b (.ret [])]
  | b :: next :: rest => endWith b (.jmp next.name) :: closeBlocks (next :: rest)

def close (g : FlowGraph) : FlowGraph :=
  { g with blocks := closeBlocks g.blocks }

structure Construction where
  graph : FlowGraph
  entryAdded : Bool
  terminatorsAdded : Nat

/-- Builds the graph of a function. A repeated label is refused, and so is an unknown one
if labels are checked. -/
def build (f : Function) (checkLabels : Bool) : Except Fault Construction := do
  let used := bodyLabels f.body
  let laid ← (nameRuns used (Run.split f.body)).foldlM add (empty f)
  let opened := laid.withEntry used
  let construction : Construction :=
    ⟨opened.close, entryMentioned laid.blocks, opened.blocks.countP fun b => b.terminator?.isNone⟩
  -- The check comes last, so a repeated label is reported before an unknown one.
  if checkLabels then
    match construction.graph.dangling? with
    | some (block, target) => .error (.unknownLabel block target)
    | none => .ok construction
  else
    .ok construction

def ofFunction (f : Function) (checkLabels : Bool) : Except Fault FlowGraph :=
  (build f checkLabels).map Construction.graph

def Construction.event (c : Construction) : Event :=
  .graphBuilt c.graph.name c.graph.blocks.length c.entryAdded c.terminatorsAdded

end SsaForm.FlowGraph
