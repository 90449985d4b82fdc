import SsaForm.Proofs.Relation.Basic
import SsaForm.Proofs.Relation.Reachability
import SsaForm.Proofs.Renaming.Recursion

/-!
# Renaming as a descent into the tree

In a relation without cycles the keys below a node become fewer with every step, so a descent
from a node comes to an end and the relation unfolds to a tree. Renaming can then be said
without a list of pending actions: a block notes what is in scope, is renamed, has its children
renamed in ascending order, and puts back what it has noted. The walk does the same, whether
it takes the children of a block from the unfolded tree or looks them up in the relation.
-/

namespace SsaForm

namespace Relation

variable {κ : Type} [Ord κ] [Std.TransOrd κ]

/-- Nothing that a node is related to leads back to the node. -/
def Acyclic (r : Relation κ) : Prop :=
  ∀ parent child, child ∈ r.image parent → ¬ r.Reaches child parent

variable [Std.LawfulEqOrd κ] {r : Relation κ}

theorem acyclic_iff : r.Acyclic ↔ ∀ parent ∈ r.domain.toList, ∀ child ∈ (r.image parent).toList,
    parent ∉ r.reachable child := by
  simp only [Std.ExtTreeSet.mem_toList, mem_domain, mem_reachable]
  constructor
  · intro acyclic parent _ child related back
    exact acyclic parent child related back.2
  · intro unreached parent child related back
    have key : parent ∈ r := mem_of_mem_image related
    apply unreached parent key child related
    refine ⟨?_, back⟩
    by_cases same : parent = child
    · exact same ▸ key
    · exact back.mem_start same

instance decidableAcyclic (r : Relation κ) : Decidable r.Acyclic :=
  decidable_of_iff _ acyclic_iff.symm

/-- The keys that a node leads to, itself included. -/
def keysBelow (r : Relation κ) (node : κ) : KeySet κ :=
  r.domain ∩ r.reachable node

theorem mem_keysBelow {node k : κ} :
    k ∈ r.keysBelow node ↔ k ∈ r ∧ node ∈ r ∧ r.Reaches node k := by
  rw [keysBelow, Std.ExtTreeSet.mem_inter_iff, mem_domain, mem_reachable]

theorem size_keysBelow_le (node : κ) : (r.keysBelow node).size ≤ r.size := by
  refine Nat.le_trans (KeySet.size_le_of_subset ?_) size_domain_le
  exact fun k below => mem_domain.mpr (mem_keysBelow.mp below).1

/-- A step leaves the key behind that it is made from. -/
theorem Acyclic.size_keysBelow_lt (acyclic : r.Acyclic) {parent child : κ}
    (related : child ∈ r.image parent) :
    (r.keysBelow child).size < (r.keysBelow parent).size := by
  have key : parent ∈ r := mem_of_mem_image related
  apply KeySet.size_lt_of_subset (k := parent)
  · intro k below
    obtain ⟨isKey, _, visited, path⟩ := mem_keysBelow.mp below
    exact mem_keysBelow.mpr ⟨isKey, key, _, path.cons related⟩
  · exact mem_keysBelow.mpr ⟨key, key, .refl r parent⟩
  · exact fun back => acyclic parent child related (mem_keysBelow.mp back).2.2

end Relation

namespace VisitTree

variable {tree : Relation String}

/-- More depth than there are keys below a node adds nothing. -/
theorem unfoldTo_succ (acyclic : tree.Acyclic) {depth : Nat} {name : String}
    (deep : (tree.keysBelow name).size ≤ depth) :
    unfoldTo tree (depth + 1) name = unfoldTo tree depth name := by
  induction depth generalizing name with
  | zero =>
    have childless : (tree.image name).toList = [] := by
      apply List.eq_nil_iff_forall_not_mem.mpr
      intro child listed
      have smaller := acyclic.size_keysBelow_lt (Std.ExtTreeSet.mem_toList.mp listed)
      omega
    rw [Nat.zero_add, unfoldTo, unfoldTo, childless]
    rfl
  | succ depth inductionHypothesis =>
    rw [unfoldTo, unfoldTo]
    congr 1
    apply List.map_congr_left
    intro child listed
    have smaller := acyclic.size_keysBelow_lt (Std.ExtTreeSet.mem_toList.mp listed)
    exact inductionHypothesis (by omega)

/-- A relation without cycles unfolds below a node as it unfolds from the children. -/
theorem unfold_eq_node (acyclic : tree.Acyclic) (name : String) :
    unfold tree name = .node name ((tree.image name).toList.map (unfold tree)) :=
  (unfoldTo_succ acyclic (Relation.size_keysBelow_le name)).symm

end VisitTree

namespace Renaming

/-- Renames a block and all that lies below it. The versions in scope are noted before the block
makes its own and put back behind its last child; the numbering goes on. -/
def descend (plan : Plan) (tree : Relation String) (acyclic : tree.Acyclic) (name : String)
    (state : State) : Except Stop State := do
  let noted := state.versions.inScope
  let (inside, _) ← visit plan name state
  let last ← (tree.image name).toList.attach.foldlM
    (fun reached child => descend plan tree acyclic child.val reached) inside
  return { last with versions := { last.versions with inScope := noted } }
termination_by (tree.keysBelow name).size
decreasing_by exact acyclic.size_keysBelow_lt (Std.ExtTreeSet.mem_toList.mp child.property)

section Descent

variable {plan : Plan} {tree : Relation String}

/-- Children that are renamed one after the other are visited as a forest. -/
theorem foldlM_eq_visitForest {below : String → State → Except Stop State} {names : List String}
    (agree : ∀ name ∈ names, ∀ state, below name state = visitTree plan state (.unfold tree name))
    (state : State) :
    names.foldlM (fun reached name => below name reached) state =
      visitForest plan state (names.map (VisitTree.unfold tree)) := by
  induction names generalizing state with
  | nil => rfl
  | cons name rest inductionHypothesis =>
    obtain ⟨first, others⟩ := List.forall_mem_cons.mp agree
    rw [List.foldlM_cons, first state, List.map_cons, visitForest]
    exact congrArg _ (funext fun middle => inductionHypothesis others middle)

/-- The descent is the recursion over the unfolded tree. -/
theorem descend_eq_visitTree (acyclic : tree.Acyclic) (name : String) (state : State) :
    descend plan tree acyclic name state = visitTree plan state (.unfold tree name) := by
  induction size : (tree.keysBelow name).size using Nat.strongRecOn generalizing name state with
  | ind size inductionHypothesis =>
    have below : ∀ child ∈ (tree.image name).toList, ∀ reached,
        descend plan tree acyclic child reached = visitTree plan reached (.unfold tree child) := by
      intro child listed reached
      have smaller := acyclic.size_keysBelow_lt (Std.ExtTreeSet.mem_toList.mp listed)
      exact inductionHypothesis _ (by omega) child reached rfl
    rw [descend, VisitTree.unfold_eq_node acyclic, visitTree]
    cases visit plan name state with
    | error stop => rfl
    | ok pair =>
      obtain ⟨inside, made⟩ := pair
      have children : (tree.image name).toList.attach.foldlM
          (fun reached child => descend plan tree acyclic child.val reached) inside =
            visitForest plan inside ((tree.image name).toList.map (VisitTree.unfold tree)) := by
        rw [List.foldlM_subtype (g := fun reached child => descend plan tree acyclic child reached)
          fun _ _ _ => rfl, List.unattach_attach]
        exact foldlM_eq_visitForest below inside
      simp only [bind, Except.bind, children]
      cases visitForest plan inside ((tree.image name).toList.map (VisitTree.unfold tree)) with
      | error stop => rfl
      | ok last => rfl

/-- The walk from one block on is the descent from that block. -/
theorem walk_unfold_eq_descend (acyclic : tree.Acyclic) {state : State}
    (proper : state.versions.Proper) (name : String) :
    walk plan state [.enter (.unfold tree name)] = descend plan tree acyclic name state := by
  rw [walk_visitTree plan state proper, descend_eq_visitTree]
  cases visitTree plan state (.unfold tree name) with
  | error stop => rfl
  | ok last => simp only [Except.bind, walk]

end Descent

/-- A task of the walk: to rename a block and what lies below it, or to leave a block and drop
the versions that it made. -/
inductive Task where
  | enter (name : String)
  | leave (made : List String)

/-- What tasks come to that are worked off from the first one on. The children of a block are
looked up when it has been renamed, and a fault ends the work. -/
inductive WorksOff (plan : Plan) (tree : Relation String) :
    State → List Task → Except Stop State → Prop where
  | done {state : State} : WorksOff plan tree state [] (.ok state)
  | leave {state : State} {made : List String} {rest : List Task} {outcome : Except Stop State}
    (others : WorksOff plan tree { state with versions := state.versions.popAll made } rest
      outcome) :
    WorksOff plan tree state (.leave made :: rest) outcome
  | enter {state inside : State} {name : String} {made : List String} {rest : List Task}
    {outcome : Except Stop State} (visited : visit plan name state = .ok (inside, made))
    (others : WorksOff plan tree inside
      ((tree.image name).toList.map .enter ++ .leave made :: rest) outcome) :
    WorksOff plan tree state (.enter name :: rest) outcome
  | stop {state : State} {name : String} {rest : List Task} {stop : Stop}
    (stopped : visit plan name state = .error stop) :
    WorksOff plan tree state (.enter name :: rest) (.error stop)

/-- The task with the tree below its block unfolded ahead. -/
def Task.unfolded (tree : Relation String) : Task → Pending
  | .enter name => .enter (.unfold tree name)
  | .leave made => .leave made

/-- In a relation without cycles all tasks are worked off, as the walk does it. -/
theorem worksOff_walk {plan : Plan} {tree : Relation String} (acyclic : tree.Acyclic)
    (state : State) (tasks : List Task) :
    WorksOff plan tree state tasks (walk plan state (tasks.map (Task.unfolded tree))) := by
  induction size : Pending.weight (tasks.map (Task.unfolded tree)) using Nat.strongRecOn
    generalizing state tasks with
  | ind size inductionHypothesis =>
    cases tasks with
    | nil =>
      rw [List.map_nil, walk]
      exact .done
    | cons task rest =>
      cases task with
      | leave made =>
        rw [List.map_cons, Task.unfolded, walk]
        refine .leave (inductionHypothesis _ ?_ _ rest rfl)
        rw [← size, List.map_cons, Task.unfolded, Pending.weight]
        exact Nat.lt_succ_self _
      | enter name =>
        rw [List.map_cons, Task.unfolded, VisitTree.unfold_eq_node acyclic] at size ⊢
        rw [walk]
        cases visited : visit plan name state with
        | error stop => exact .stop visited
        | ok pair =>
          obtain ⟨inside, made⟩ := pair
          have unfolded : ((tree.image name).toList.map Task.enter ++ .leave made :: rest).map
              (Task.unfolded tree) =
                Pending.enterAll ((tree.image name).toList.map (VisitTree.unfold tree))
                  (.leave made :: rest.map (Task.unfolded tree)) := by
            rw [List.map_append, List.map_map, Pending.enterAll, List.map_map]
            rfl
          refine .enter visited ?_
          simp only [← unfolded]
          refine inductionHypothesis _ ?_ inside _ rfl
          rw [← size, unfolded, Pending.weight_enterAll, Pending.weight, Pending.weight,
            VisitTree.weight]
          omega

/-- What a walk that has come to an end leaves of the blocks, and what it has to say. -/
def ofOutcome : Except Stop State → SsaForm.Renaming
  | .ok state => ⟨state.blocks, state.events, .ok state.tables⟩
  | .error stop => ⟨stop.blocks, stop.events, .error stop.fault⟩

/-- Renaming with a list of tasks is renaming by descent into the tree, for any blocks, merges,
edges and parameters and for every tree without cycles. A task list that starts with the root
is worked off, and it comes to what the descent from the root comes to. So does renaming: it
leaves the same blocks, reports the same events, and has the same merges or the same fault. -/
theorem rename_is_descent (config : Config) (phis successors tree : Relation String)
    (root : String) (params : List String) (blocks : List Block) (acyclic : tree.Acyclic) :
    let plan : Plan := ⟨config, phis, successors⟩
    let start : State := ⟨blocks, .ofParams params, {}, []⟩
    WorksOff plan tree start [.enter root] (descend plan tree acyclic root start) ∧
      rename config phis successors tree root params blocks =
        ofOutcome (descend plan tree acyclic root start) := by
  intro plan start
  have same : walk plan start [.enter (.unfold tree root)] = descend plan tree acyclic root start :=
    walk_unfold_eq_descend acyclic (Versions.Proper.ofParams params) root
  constructor
  · rw [← same]
    exact worksOff_walk acyclic start [.enter root]
  · rw [rename, same]
    cases descend plan tree acyclic root start with
    | error stop => rfl
    | ok last => rfl

/-- A tree in which two blocks share a child. -/
def forking : Relation String :=
  .relating [("top", ["left", "right"]), ("left", ["join"]), ("right", ["join"])]

/-- Both blocks lead to a merge in the shared one, and one of them also to a merge of a variable
that nothing assigns. -/
def forkingPlan (config : Config) : Plan :=
  ⟨config, .relating [("exit", ["z"]), ("join", ["x"])],
    .relating [("left", ["join"]), ("right", ["exit", "join"])]⟩

/-- Blocks for the tree, before any of them is renamed; two have the same name. -/
def forkingStart : State where
  blocks := [
    ⟨"top", [.constant "x" (.primitive "int") (.int 0)]⟩,
    ⟨"join", [.effect "print" ["x"]]⟩,
    ⟨"left", [.constant "x" (.primitive "int") (.int 1)]⟩,
    ⟨"right", [.effect "print" ["x"]]⟩,
    ⟨"join", [.assign "id" "y" (.primitive "int") ["x"]]⟩]
  versions := .ofParams []
  tables := {}
  events := []

/-- A strict descent stops at the block on the right, with this block and the shared one below
the left one renamed. Another descent goes on and renames the shared block once more, so that its
merge makes another version and has an operand from either side. The other block of that name is
never found. -/
theorem rename_is_descent_forking :
    ∃ acyclic : forking.Acyclic,
      let strictly := ofOutcome (descend (forkingPlan .strict) forking acyclic "top" forkingStart)
      let filling := ofOutcome (descend (forkingPlan {}) forking acyclic "top" forkingStart)
      strictly.outcome.toOption = none ∧
      strictly.blocks.map Block.assigned = [["x.0"], [], ["x.1"], [], ["y.0"]] ∧
      (strictly.blocks.map fun b => b.instrs.map Instr.args) =
        [[[]], [["x"]], [[]], [["x.0"]], [["x.2"]]] ∧
      filling.blocks.map Block.assigned = [["x.0"], [], ["x.1"], [], ["y.0.0"]] ∧
      (filling.outcome.toOption.map fun tables => (tables.dests.getD "join" ∅).toList) =
        some [("x", "x.3")] ∧
      (filling.outcome.toOption.map fun tables => tables.operandsOf "join" "x") =
        some [("left", "x.1"), ("right", "x.0")] ∧
      (filling.outcome.toOption.map fun tables => tables.operandsOf "exit" "z") =
        some [("right", "__undefined")] := by
  have acyclic : forking.Acyclic := by decide +kernel
  have same : ∀ config, ofOutcome (descend (forkingPlan config) forking acyclic "top" forkingStart) =
      rename config (forkingPlan config).phis (forkingPlan config).successors forking "top" []
        forkingStart.blocks :=
    fun config => (rename_is_descent config _ _ forking "top" [] forkingStart.blocks acyclic).2.symm
  refine ⟨acyclic, ?_⟩
  rw [same, same]
  decide +kernel

end Renaming

end SsaForm
