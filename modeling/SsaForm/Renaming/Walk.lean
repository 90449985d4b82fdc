import SsaForm.Config
import SsaForm.Event
import SsaForm.Fault
import SsaForm.Phi.Insertion
import SsaForm.Renaming.Tree
import SsaForm.Renaming.Versions

/-!
# Renaming

Renaming walks the dominator tree. At a block it makes a version for every merge, renames
the instructions, and tells the merges of the successors which versions flow into them.
The versions that a block makes stay in scope below it and are dropped behind its last
child. The walk keeps its own stack; a fault ends it, and the blocks stay as far as they
have been renamed.
-/

namespace SsaForm

namespace Renaming

/-- What the walk looks up: which variables each block merges, and where control goes. -/
structure Plan where
  config : Config
  phis : Relation String
  successors : Relation String

structure State where
  blocks : List Block
  versions : Versions
  tables : Phi.Tables
  events : List Event

/-- Takes a list of blocks apart at the last block with a name. -/
def splitLast? (name : String) : List Block → Option (List Block × Block × List Block)
  | [] => none
  | b :: rest =>
    match splitLast? name rest with
    | some (before, found, after) => some (b :: before, found, after)
    | none => if b.name = name then some ([], b, rest) else none

theorem splitLast?_eq_none {name : String} {blocks : List Block} :
    splitLast? name blocks = none ↔ ∀ b ∈ blocks, b.name ≠ name := by
  induction blocks with
  | nil => simp [splitLast?]
  | cons b rest inductionHypothesis =>
    rw [splitLast?]
    split
    next found => simp [← inductionHypothesis, found]
    next missing =>
      rw [List.forall_mem_cons, ← inductionHypothesis]
      split <;> simp_all

theorem splitLast?_eq_some {name : String} {blocks before after : List Block} {found : Block}
    (parts : splitLast? name blocks = some (before, found, after)) :
    blocks = before ++ found :: after ∧ found.name = name ∧ ∀ b ∈ after, b.name ≠ name := by
  induction blocks generalizing before with
  | nil => simp [splitLast?] at parts
  | cons b rest inductionHypothesis =>
    rw [splitLast?] at parts
    split at parts
    next laterBefore laterFound laterAfter later =>
      cases parts
      obtain ⟨whole, named, last⟩ := inductionHypothesis later
      exact ⟨by rw [whole, List.cons_append], named, last⟩
    next missing =>
      split at parts
      next named =>
        cases parts
        exact ⟨rfl, named, splitLast?_eq_none.mp missing⟩
      next => simp at parts

/-- The merges that a block feeds, successors in ascending order and for each the merged
variables in ascending order. -/
def fed (plan : Plan) (name : String) : List (String × String) :=
  (plan.successors.image name).toList.flatMap fun successor =>
    (plan.phis.image successor).toList.map fun var => (successor, var)

def outflow (config : Config) (versions : Versions) (name var : String) : Except Fault String :=
  match versions.current? var, config.unassigned with
  | some version, _ => .ok version
  | none, .placeholder => .ok config.placeholder
  | none, .refuse => .error (.unassigned var name)

def feed (config : Config) (versions : Versions) (name : String) :
    List (String × String) → Phi.Tables → Except Fault Phi.Tables
  | [], tables => .ok tables
  | (successor, var) :: rest, tables =>
    match outflow config versions name var with
    | .error fault => .error fault
    | .ok version =>
      feed config versions name rest (tables.addOperand successor var (name, version))

/-- A walk that a fault has ended, with the blocks as they are then. -/
structure Stop where
  fault : Fault
  blocks : List Block
  events : List Event

/-- Renames the block with a name, and lists the variables of which it made versions. -/
def visit (plan : Plan) (name : String) (state : State) :
    Except Stop (State × List String) :=
  match splitLast? name state.blocks with
  | none => .error ⟨.strayTreeNode name, state.blocks, state.events⟩
  | some (before, block, after) =>
    let merged := (plan.phis.image name).toList
    let (dests, atHead) := state.versions.pushAll merged
    let (instrs, atEnd) := atHead.renameInstrs block.instrs
    let blocks := before ++ { block with instrs } :: after
    let made := merged ++ block.assigned
    let headed := state.tables.setDests name (.ofList dests)
    match feed plan.config atEnd name (fed plan name) headed with
    | .error fault => .error ⟨fault, blocks, state.events⟩
    | .ok tables =>
      .ok (⟨blocks, atEnd, tables, state.events ++ [.blockRenamed name made.length]⟩, made)

/-- A pending action of the walk: to visit a tree, or to leave a block and drop the versions
that it made. -/
inductive Pending where
  | enter (tree : VisitTree)
  | leave (made : List String)

namespace Pending

def weight : List Pending → Nat
  | [] => 0
  | .enter tree :: rest => tree.weight + weight rest
  | .leave _ :: rest => weight rest + 1

def enterAll (forest : List VisitTree) (rest : List Pending) : List Pending :=
  forest.map .enter ++ rest

theorem weight_enterAll (forest : List VisitTree) (rest : List Pending) :
    weight (enterAll forest rest) = VisitTree.forestWeight forest + weight rest := by
  induction forest with
  | nil => exact (Nat.zero_add _).symm
  | cons tree others inductionHypothesis =>
    rw [VisitTree.forestWeight, Nat.add_assoc, ← inductionHypothesis]
    rfl

end Pending

/-- Carries out the pending actions. A block that is entered puts its children in front of
what was pending, and behind them its own leaving. -/
def walk (plan : Plan) (state : State) : List Pending → Except Stop State
  | [] => .ok state
  | .leave made :: rest => walk plan { state with versions := state.versions.popAll made } rest
  | .enter (.node name children) :: rest =>
    match visit plan name state with
    | .error stop => .error stop
    | .ok (state, made) => walk plan state (Pending.enterAll children (.leave made :: rest))
termination_by pending => Pending.weight pending
decreasing_by
  · simp only [Pending.weight]
    omega
  · simp only [Pending.weight_enterAll, Pending.weight, VisitTree.weight]
    omega

end Renaming

/-- What renaming came to: the blocks as far as they were renamed, what was reported, and
the merges or the fault that ended the walk. -/
structure Renaming where
  blocks : List Block
  events : List Event
  outcome : Except Fault Phi.Tables

def rename (config : Config) (phis successors tree : Relation String) (root : String)
    (params : List String) (blocks : List Block) : Renaming :=
  let start : Renaming.State := ⟨blocks, .ofParams params, {}, []⟩
  match Renaming.walk ⟨config, phis, successors⟩ start [.enter (.unfold tree root)] with
  | .ok state => ⟨state.blocks, state.events, .ok state.tables⟩
  | .error stop => ⟨stop.blocks, stop.events, .error stop.fault⟩

end SsaForm
