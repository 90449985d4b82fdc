import Mathlib.Data.List.Nodup
import SsaForm.FlowGraph.Dominance
import SsaForm.Proofs.Dominance.Correctness
import SsaForm.Proofs.Dominance.Tree
import SsaForm.Proofs.FlowGraph.Edges
import SsaForm.Proofs.FlowGraph.WellFormed

/-!
# Edges and dominance of a well-formed graph

With unique block names the successors can be read off the blocks, and without dangling
edges the predecessors are their converse. So the analyses of a graph are about the paths
of its successor relation from the entry, and dominance is what the solver computes.
-/

namespace SsaForm.FlowGraph

variable {g : FlowGraph}

theorem mem_names {name : String} : name ∈ g.names ↔ ∃ b ∈ g.blocks, b.name = name :=
  List.mem_map

theorem WellFormed.eq_of_name (wellFormed : g.WellFormed) {b c : Block} (left : b ∈ g.blocks)
    (right : c ∈ g.blocks) (same : b.name = c.name) : b = c :=
  List.inj_on_of_nodup_map wellFormed.distinct left right same

theorem WellFormed.block?_eq_some (wellFormed : g.WellFormed) {name : String} {b : Block} :
    g.block? name = some b ↔ b ∈ g.blocks ∧ b.name = name := by
  rw [block?, Option.bind_eq_some_iff]
  constructor
  · rintro ⟨position, found, atPosition⟩
    have named : g.names[position]? = some name := (wellFormed.indexed name position).mp found
    rw [names, List.getElem?_map, atPosition] at named
    exact ⟨List.mem_of_getElem? atPosition, Option.some.inj named⟩
  · rintro ⟨inside, rfl⟩
    obtain ⟨position, atPosition⟩ := List.mem_iff_getElem?.mp inside
    refine ⟨position, (wellFormed.indexed b.name position).mpr ?_, atPosition⟩
    rw [names, List.getElem?_map, atPosition]
    rfl

section Edges

theorem mem_successors {name : String} : name ∈ g.successors ↔ name ∈ g.names := by
  simp [successors, Std.ExtTreeMap.mem_ofList, names, Function.comp_def]

theorem WellFormed.image_successors (wellFormed : g.WellFormed) {b : Block}
    (inside : b ∈ g.blocks) : g.successors.image b.name = b.successors := by
  apply Relation.image_eq_of_getElem?
  apply Std.ExtTreeMap.getElem?_ofList_of_mem (k := b.name) Std.ReflCmp.compare_self
  · rw [List.pairwise_map]
    refine (List.pairwise_map.mp wellFormed.distinct).imp ?_
    intro first second distinct
    simpa using distinct
  · exact List.mem_map.mpr ⟨b, inside, rfl⟩

theorem WellFormed.mem_image_successors (wellFormed : g.WellFormed) {name target : String} :
    target ∈ g.successors.image name ↔ ∃ b ∈ g.blocks, b.name = name ∧ target ∈ b.targets := by
  constructor
  · intro related
    obtain ⟨b, inside, rfl⟩ := mem_names.mp (mem_successors.mp (Relation.mem_of_mem_image related))
    rw [wellFormed.image_successors inside, Block.successors, KeySet.mem_ofList] at related
    exact ⟨b, inside, rfl, related⟩
  · intro targets
    obtain ⟨b, inside, rfl, targeted⟩ := targets
    rw [wellFormed.image_successors inside, Block.successors, KeySet.mem_ofList]
    exact targeted

theorem WellFormed.target_mem_names (wellFormed : g.WellFormed) (resolved : g.dangling? = none)
    {name target : String} (related : target ∈ g.successors.image name) : target ∈ g.names := by
  obtain ⟨b, inside, _, targeted⟩ := wellFormed.mem_image_successors.mp related
  exact wellFormed.indexed.dangling?_eq_none.mp resolved b inside target targeted

theorem WellFormed.hold (wellFormed : g.WellFormed) (resolved : g.dangling? = none) :
    Edges.Hold ⟨g.successors, g.predecessors⟩ g.names g.links := by
  constructor
  · exact fun name => mem_successors
  · intro name
    rw [predecessors, KeySet.mem_tabulate, KeySet.mem_ofList]
  · intro source target
    rw [wellFormed.mem_image_successors, mem_links]
    simp only [and_comm]
  · intro source target
    rw [predecessors, Relation.image_tabulate, mem_links]
    split
    next => simp [and_assoc]
    next missing =>
      refine iff_of_false Std.ExtTreeSet.not_mem_empty ?_
      rintro ⟨b, inside, targeted, _⟩
      apply missing
      apply KeySet.mem_ofList.mpr
      exact wellFormed.indexed.dangling?_eq_none.mp resolved b inside target targeted

theorem WellFormed.edges_of_resolved (wellFormed : g.WellFormed) (resolved : g.dangling? = none) :
    g.edges = .ok ⟨g.successors, g.predecessors⟩ :=
  wellFormed.indexed.edges_eq_ok_iff.mpr ⟨resolved, wellFormed.hold resolved⟩

theorem WellFormed.edges_eq_ok (wellFormed : g.WellFormed) {edges : Edges}
    (found : g.edges = .ok edges) :
    g.dangling? = none ∧ edges = ⟨g.successors, g.predecessors⟩ := by
  obtain ⟨resolved, hold⟩ := wellFormed.indexed.edges_eq_ok_iff.mp found
  exact ⟨resolved, hold.eq (wellFormed.hold resolved)⟩

/-- The predecessors are the successors read backwards. -/
theorem WellFormed.predecessors_eq_converse (wellFormed : g.WellFormed)
    (resolved : g.dangling? = none) : g.predecessors = g.successors.converse :=
  (wellFormed.hold resolved).predecessors_eq_converse fun _ =>
    wellFormed.indexed.snd_mem_names resolved

end Edges

/-- Some path leads to the block from the entry. -/
def Live (g : FlowGraph) (name : String) : Prop :=
  ∃ entry, g.entry? = some entry ∧ g.successors.Reaches entry name

theorem live_iff_mem_liveBlocks {name : String} :
    g.Live name ↔ name ∈ g.liveBlocks ⟨g.successors, g.predecessors⟩ := by
  rw [Live, liveBlocks]
  cases root : g.entry? with
  | none => simp
  | some entry =>
    have key : entry ∈ g.successors := mem_successors.mpr (List.mem_of_mem_head? root)
    simp [Relation.mem_reachable, key]

instance decidableLive (g : FlowGraph) (name : String) : Decidable (g.Live name) :=
  decidable_of_iff _ live_iff_mem_liveBlocks.symm

/-- Without blocks there are no dominator sets. -/
theorem not_mem_liveDominators_of_no_entry (rootless : g.entry? = none) (edges : Edges)
    (name : String) : name ∉ g.liveDominators edges := by
  intro key
  unfold liveDominators liveBlocks at key
  rw [rootless, Relation.mem_restrict] at key
  exact Std.ExtTreeSet.not_mem_empty key.2

theorem not_live_of_no_entry (rootless : g.entry? = none) (name : String) : ¬ g.Live name := by
  rintro ⟨entry, root, _⟩
  cases rootless.symm.trans root

/-- Some live block assigns the variable. -/
def Assigns (g : FlowGraph) (var : String) : Prop :=
  ∃ b ∈ g.blocks, g.Live b.name ∧ var ∈ b.assigned

/-- A graph with an entry and without dangling edges. -/
structure Rooted (g : FlowGraph) (entry : String) : Prop extends g.WellFormed where
  root : g.entry? = some entry
  resolved : g.dangling? = none

namespace Rooted

variable {entry : String}

theorem edges (rooted : g.Rooted entry) : g.edges = .ok ⟨g.successors, g.predecessors⟩ :=
  rooted.edges_of_resolved rooted.resolved

theorem of_edges {edges : Edges} (wellFormed : g.WellFormed) (found : g.edges = .ok edges)
    (root : g.entry? = some entry) : g.Rooted entry :=
  { wellFormed with root, resolved := (wellFormed.edges_eq_ok found).1 }

theorem live_iff (rooted : g.Rooted entry) {name : String} :
    g.Live name ↔ g.successors.Reaches entry name := by
  rw [Live, rooted.root]
  constructor
  · intro live
    obtain ⟨_, same, reached⟩ := live
    cases same
    exact reached
  · intro reached
    exact ⟨entry, rfl, reached⟩

theorem entry_mem_names (rooted : g.Rooted entry) : entry ∈ g.names :=
  List.mem_of_mem_head? rooted.root

theorem mem_names_of_reaches (rooted : g.Rooted entry) {name : String}
    (reached : g.successors.Reaches entry name) : name ∈ g.names := by
  obtain ⟨visited, path⟩ := reached
  cases path with
  | start => exact rooted.entry_mem_names
  | step _ related => exact rooted.target_mem_names rooted.resolved related

theorem mem_names_of_carrier (rooted : g.Rooted entry) :
    ∀ k ∈ g.successors.carrier, k ∈ g.names := by
  intro k mentioned
  rcases Relation.mem_carrier.mp mentioned with key | ⟨source, related⟩
  · exact mem_successors.mp key
  · exact rooted.target_mem_names rooted.resolved related

theorem entry_not_target (rooted : g.Rooted entry) {name : String} :
    entry ∉ g.successors.image name := by
  intro related
  obtain ⟨b, inside, _, targeted⟩ := rooted.mem_image_successors.mp related
  exact rooted.unentered b inside entry rooted.root targeted

theorem mem_predecessors (rooted : g.Rooted entry) {name p : String} :
    p ∈ g.predecessors.image name ↔ name ∈ g.successors.image p := by
  rw [rooted.predecessors_eq_converse rooted.resolved, Relation.mem_image_converse]

theorem mem_liveBlocks (rooted : g.Rooted entry) {predecessors : Relation String} {name : String} :
    name ∈ g.liveBlocks ⟨g.successors, predecessors⟩ ↔ g.successors.Reaches entry name := by
  rw [liveBlocks, rooted.root, Relation.mem_reachable]
  exact and_iff_right (mem_successors.mpr rooted.entry_mem_names)

theorem solveDominance_eq (rooted : g.Rooted entry) :
    g.solveDominance ⟨g.successors, g.predecessors⟩ =
      Dominance.solve g.names g.successors g.successors.converse entry := by
  rw [solveDominance, rooted.root, rooted.predecessors_eq_converse rooted.resolved]

theorem isDominance (rooted : g.Rooted entry) :
    IsDominance g.successors entry (g.liveDominators ⟨g.successors, g.predecessors⟩) := by
  have listed : ∀ k, g.successors.Reaches entry k → k ∈ g.names := fun k reached =>
    rooted.mem_names_of_reaches reached
  constructor
  · intro k
    rw [liveDominators, Relation.mem_restrict, rooted.mem_liveBlocks, rooted.solveDominance_eq,
      (Dominance.covering_solve listed).keys]
    exact ⟨And.right, fun reached => ⟨listed k reached, reached⟩⟩
  · intro k reached d
    rw [liveDominators, Relation.mem_image_restrict, rooted.mem_liveBlocks,
      rooted.solveDominance_eq, Dominance.mem_solve_iff_dominates listed reached]
    exact and_iff_right reached

end Rooted

end SsaForm.FlowGraph

namespace SsaForm.Dominance

variable {κ : Type} [Ord κ] [Std.TransOrd κ] [Std.LawfulEqOrd κ] [DecidableEq κ]

/-- The solver ends with the dominators of every node: the sweeps settle, the listed nodes
are the keys, a node that the entry reaches is assigned what lies on all paths to it, and
any other node is assigned all listed nodes. The dominators of a graph are this solution for
its edges and its first block, with all of its blocks listed. -/
theorem solve_computes_dominance (nodes : List κ) (successors : Relation κ) (entry : κ)
    (entryListed : entry ∈ nodes) (carrierListed : ∀ k ∈ successors.carrier, k ∈ nodes) :
    let solution := solve nodes successors successors.converse entry
    (solution.stable = true ∧
      Settles (sweep successors.converse (innerOrder successors entry)) (initial nodes entry)
        solution.sets) ∧
    (∀ k, k ∈ solution.sets ↔ k ∈ nodes) ∧
    (∀ node, successors.Reaches entry node →
      ∀ d, d ∈ solution.sets.image node ↔ Dominates successors entry d node) ∧
    (∀ node ∈ nodes, ¬ successors.Reaches entry node →
      solution.sets[node]? = some (.ofList nodes)) ∧
    ∀ (g : FlowGraph) (edges : Edges) (first : String), g.WellFormed → g.edges = .ok edges →
      g.entry? = some first →
      first ∈ g.names ∧ (∀ k ∈ edges.successors.carrier, k ∈ g.names) ∧
        g.dominators =
          .ok (solve g.names edges.successors edges.successors.converse first).sets := by
  have listed := listed_of_carrier entryListed carrierListed
  have covering := covering_solve listed
  have settled : (solve nodes successors successors.converse entry).stable = true ∧ _ :=
    solve_settles listed
  refine ⟨⟨settled.1, ?_⟩, covering.keys, ?_, ?_, ?_⟩
  · rw [solve_sets entryListed]
    exact settles_of_stable (solve_stable entryListed ▸ settled.1)
  · intro node reached d
    exact mem_solve_iff_dominates listed reached
  · intro node isListed unreached
    rw [Relation.getElem?_eq_some_image ((covering.keys node).mpr isListed),
      covering.unreached node isListed unreached]
  · intro g edges first wellFormed found root
    have rooted := FlowGraph.Rooted.of_edges wellFormed found root
    rw [(wellFormed.edges_eq_ok found).2]
    refine ⟨rooted.entry_mem_names, rooted.mem_names_of_carrier, ?_⟩
    rw [← rooted.solveDominance_eq, FlowGraph.dominators, rooted.edges]
    rfl

/-- Two nodes that lead to each other and can both be entered from outside, with a node
behind them that an unreached one leads to as well. -/
def crossing : Relation Nat :=
  .relating [(0, [1, 2]), (1, [2, 3]), (2, [1, 3]), (4, [3])]

/-- Neither of the two nodes dominates the one behind them, and the unreached node does not
count. -/
theorem solve_computes_dominance_crossing :
    (0 ∈ [0, 1, 2, 3, 4] ∧ ∀ k ∈ crossing.carrier, k ∈ [0, 1, 2, 3, 4]) ∧
      Dominates crossing 0 0 3 ∧ ¬ Dominates crossing 0 1 3 ∧ ¬ Dominates crossing 0 2 3 ∧
      (solve [0, 1, 2, 3, 4] crossing crossing.converse 0).sets[4]? =
        some (.ofList [0, 1, 2, 3, 4]) := by
  have carrierListed : ∀ k ∈ crossing.carrier, k ∈ [0, 1, 2, 3, 4] := by
    have listed : ∀ k ∈ crossing.carrier.toList, k ∈ [0, 1, 2, 3, 4] := by decide +kernel
    exact fun k mentioned => listed k (Std.ExtTreeSet.mem_toList.mpr mentioned)
  have reached : crossing.Reaches 0 3 :=
    ⟨[3, 1, 0], .step (.step .start (by decide +kernel)) (by decide +kernel)⟩
  have unreached : ¬ crossing.Reaches 0 4 := by
    have missing : 4 ∉ crossing.reachable 0 := by decide +kernel
    exact fun path => missing (Relation.mem_reachable.mpr ⟨path.mem_start (by decide), path⟩)
  obtain ⟨_, _, dominators, others, _⟩ :=
    solve_computes_dominance [0, 1, 2, 3, 4] crossing 0 (by decide) carrierListed
  refine ⟨⟨by decide, carrierListed⟩, ?_, ?_, ?_, others 4 (by decide) unreached⟩ <;>
    rw [← dominators 3 reached] <;> decide +kernel

end SsaForm.Dominance
