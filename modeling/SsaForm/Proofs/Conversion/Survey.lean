import SsaForm.Conversion
import SsaForm.Proofs.FlowGraph.Dominance
import SsaForm.Proofs.Phi.Placement

/-!
# The survey of a graph

What the conversion looks up, said by paths from the entry: which blocks take part, where
dominance ends, which blocks assign a variable and which have to merge it.
-/

namespace SsaForm.FlowGraph

/-- The survey along the graph's own edges. -/
def surveyed (g : FlowGraph) : Survey :=
  g.survey ⟨g.successors, g.predecessors⟩

theorem mem_definitionsIn {blocks : List Block} {var name : String} :
    name ∈ (definitionsIn blocks).image var ↔ ∃ b ∈ blocks, b.name = name ∧ var ∈ b.assigned := by
  rw [definitionsIn, Relation.image_tabulate]
  split
  next =>
    simp only [KeySet.mem_ofList, List.mem_map, List.mem_filter, decide_eq_true_eq]
    constructor
    · intro found
      obtain ⟨b, ⟨inside, assigns⟩, named⟩ := found
      exact ⟨b, inside, named, assigns⟩
    · intro found
      obtain ⟨b, inside, named, assigns⟩ := found
      exact ⟨b, ⟨inside, assigns⟩, named⟩
  next missing =>
    refine iff_of_false Std.ExtTreeSet.not_mem_empty ?_
    intro found
    obtain ⟨b, inside, _, assigns⟩ := found
    exact missing (KeySet.mem_ofList.mpr (List.mem_flatMap.mpr ⟨b, inside, assigns⟩))

namespace Rooted

variable {g : FlowGraph} {entry : String}

theorem mem_live (rooted : g.Rooted entry) {name : String} :
    name ∈ g.surveyed.live ↔ g.successors.Reaches entry name :=
  rooted.mem_liveBlocks

theorem mem_surveyed_successors (rooted : g.Rooted entry) {name target : String} :
    target ∈ g.surveyed.successors.image name ↔
      g.successors.Reaches entry name ∧ target ∈ g.successors.image name := by
  rw [surveyed, survey, liveSuccessors, Relation.mem_image_restrict, rooted.mem_liveBlocks]

theorem mem_definitions (rooted : g.Rooted entry) {var name : String} :
    name ∈ g.surveyed.definitions.image var ↔
      g.successors.Reaches entry name ∧ ∃ b ∈ g.blocks, b.name = name ∧ var ∈ b.assigned := by
  rw [surveyed, survey, mem_definitionsIn]
  simp only [List.mem_filter, decide_eq_true_eq, rooted.mem_liveBlocks]
  constructor
  · intro found
    obtain ⟨b, ⟨inside, reached⟩, rfl, assigns⟩ := found
    exact ⟨reached, b, inside, rfl, assigns⟩
  · intro found
    obtain ⟨reached, b, inside, rfl, assigns⟩ := found
    exact ⟨b, ⟨inside, reached⟩, rfl, assigns⟩

theorem mem_frontiers (rooted : g.Rooted entry) {name next : String} :
    next ∈ g.surveyed.frontiers.image name ↔
      g.successors.Reaches entry name ∧
        (∃ p, g.successors.Reaches entry p ∧ Dominates g.successors entry name p ∧
          next ∈ g.successors.image p) ∧
        ¬ StrictlyDominates g.successors entry name next :=
  rooted.isDominance.mem_frontiers fun _ => rooted.mem_liveBlocks

theorem mem_tree (rooted : g.Rooted entry) {parent child : String} :
    child ∈ g.surveyed.tree.image parent ↔
      g.successors.Reaches entry child ∧ ImmediatelyDominates g.successors entry parent child :=
  rooted.isDominance.mem_dominatorTree

/-- A variable that a block assigns or merges is merged where the block's dominance ends. -/
theorem merged_of_frontier (rooted : g.Rooted entry) {b : Block} {var next : String}
    (inside : b ∈ g.blocks)
    (makes : var ∈ b.assigned ∨ var ∈ g.surveyed.phis.image b.name)
    (ends : next ∈ g.surveyed.frontiers.image b.name) :
    var ∈ g.surveyed.phis.image next := by
  rcases makes with assigns | merges
  · have reached := (rooted.mem_frontiers.mp ends).1
    exact Phi.mem_place_of_site (rooted.mem_definitions.mpr ⟨reached, b, inside, rfl, assigns⟩) ends
  · exact Phi.mem_place_of_merge merges ends

theorem reaches_of_merged (rooted : g.Rooted entry) {var name : String}
    (merges : var ∈ g.surveyed.phis.image name) :
    g.successors.Reaches entry name ∧ name ≠ entry := by
  obtain ⟨before, ends⟩ := Phi.range_of_mem_place merges
  obtain ⟨_, ⟨p, reached, _, related⟩, _⟩ := rooted.mem_frontiers.mp ends
  refine ⟨reached.step related, ?_⟩
  intro atEntry
  subst atEntry
  exact rooted.entry_not_target related

theorem assigned_of_merged (rooted : g.Rooted entry) {var name : String}
    (merges : var ∈ g.surveyed.phis.image name) : g.Assigns var := by
  obtain ⟨site, assigns, _⟩ := Phi.mem_place.mp merges
  obtain ⟨reached, b, inside, rfl, assigned⟩ := rooted.mem_definitions.mp assigns
  exact ⟨b, inside, rooted.live_iff.mpr reached, assigned⟩

end Rooted

end SsaForm.FlowGraph
