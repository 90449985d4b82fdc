import SsaForm.Proofs.Conversion.Invariant
import SsaForm.Proofs.Conversion.Survey

/-!
# The dominator tree of a graph

The tree of a graph is taken from the dominator sets of its live blocks. Its keys are the live
blocks, each but the entry has its closest strict dominator as the only parent, and the blocks
below a block are those that it dominates.
-/

namespace SsaForm.FlowGraph

variable {g : FlowGraph} {entry : String}

theorem WellFormed.dominatorTree_eq_surveyed (wellFormed : g.WellFormed) {edges : Edges}
    (found : g.edges = .ok edges) : g.dominatorTree = .ok g.surveyed.tree := by
  unfold dominatorTree
  rw [found, (wellFormed.edges_eq_ok found).2]
  rfl

/-- Without blocks there is nothing in the tree. -/
theorem not_mem_tree_of_no_entry (rootless : g.entry? = none) (name : String) :
    name ∉ g.surveyed.tree := by
  have noKeys := not_mem_liveDominators_of_no_entry rootless ⟨g.successors, g.predecessors⟩
  unfold surveyed survey SsaForm.dominatorTree
  rw [Relation.mem_difference, Relation.mem_converse, Relation.mem_carrier]
  rintro (key | ⟨source, related⟩)
  · exact noKeys name (Relation.mem_irreflexive.mp key)
  · exact noKeys source (Relation.mem_irreflexive.mp (Relation.mem_of_mem_image related))

namespace Rooted

variable (rooted : g.Rooted entry)

include rooted

theorem mem_tree_keys {name : String} : name ∈ g.surveyed.tree ↔ g.Live name :=
  rooted.isDominance.mem_dominatorTree_keys.trans rooted.live_iff.symm

theorem reaches_tree {name other : String} (live : g.Live name) :
    g.surveyed.tree.Reaches name other ↔
      g.Live other ∧ Dominates g.successors entry name other := by
  rw [rooted.live_iff]
  exact rooted.isDominance.reaches_dominatorTree (rooted.live_iff.mp live)

theorem mem_tree_iff_eq {name parent : String}
    (immediate : ImmediatelyDominates g.successors entry parent name) (live : g.Live name)
    (other : String) : name ∈ g.surveyed.tree.image other ↔ other = parent := by
  have reached := rooted.live_iff.mp live
  rw [rooted.mem_tree]
  constructor
  · exact fun child => ImmediatelyDominates.unique reached child.2 immediate
  · rintro rfl
    exact ⟨reached, immediate⟩

theorem entry_not_mem_tree (other : String) : entry ∉ g.surveyed.tree.image other :=
  fun child => (rooted.mem_tree.mp child).2.ne_entry rfl

theorem getElem?_parents {name parent : String} :
    (treeParents g.surveyed.tree)[name]? = some parent ↔
      g.Live name ∧ name ≠ entry ∧ ImmediatelyDominates g.successors entry parent name := by
  rw [getElem?_treeParents, rooted.mem_tree, rooted.live_iff]
  · exact and_congr_right fun _ => (and_iff_right_of_imp ImmediatelyDominates.ne_entry).symm
  · intro child first second one two
    obtain ⟨reached, above⟩ := rooted.mem_tree.mp one
    exact ImmediatelyDominates.unique reached above (rooted.mem_tree.mp two).2

end Rooted

/-- The dominator tree of every graph without dangling edges, newly built or converted any
number of times, is the tree of dominance. Its keys are the live blocks. A live block other
than the entry is the child of one block, its closest strict dominator, and the entry is no
child. From a live block the tree leads to the live blocks that the block dominates. And the
parents that are read off the tree are those of the live blocks other than the entry. -/
theorem dominatorTree_is_dominance (f : Function) (checkLabels : Bool) (g h : FlowGraph)
    (built : ofFunction f checkLabels = .ok g) (configs : List Config)
    (converted : h = g.convertAll configs) (edges : Edges) (found : h.edges = .ok edges) :
    ∃ tree, h.dominatorTree = .ok tree ∧
      (∀ name, name ∈ tree ↔ h.Live name) ∧
      (∀ entry, h.entry? = some entry →
        (∀ name, h.Live name → name ≠ entry →
          ∃ parent, ImmediatelyDominates h.successors entry parent name ∧
            ∀ other, name ∈ tree.image other ↔ other = parent) ∧
        (∀ other, entry ∉ tree.image other) ∧
        ∀ name, h.Live name → ∀ other,
          tree.Reaches name other ↔ h.Live other ∧ Dominates h.successors entry name other) ∧
      ∀ name parent, (treeParents tree)[name]? = some parent ↔
        ∃ entry, h.entry? = some entry ∧ h.Live name ∧ name ≠ entry ∧
          ImmediatelyDominates h.successors entry parent name := by
  have wellFormed : h.WellFormed :=
    converted ▸ wellFormed_convertAll (wellFormed_ofFunction built) configs
  refine ⟨h.surveyed.tree, wellFormed.dominatorTree_eq_surveyed found, ?_⟩
  cases root : h.entry? with
  | none =>
    have noKeys := not_mem_tree_of_no_entry root
    refine ⟨fun name => iff_of_false (noKeys name) (not_live_of_no_entry root name), nofun, ?_⟩
    intro name parent
    rw [getElem?_treeParents]
    · refine iff_of_false (fun child => noKeys parent (Relation.mem_of_mem_image child)) ?_
      rintro ⟨entry, isEntry, _⟩
      cases isEntry
    · intro child first _ related
      exact absurd (Relation.mem_of_mem_image related) (noKeys first)
  | some entry =>
    have rooted := Rooted.of_edges wellFormed found root
    refine ⟨fun name => rooted.mem_tree_keys, ?_, ?_⟩
    · rintro _ ⟨⟩
      refine ⟨?_, rooted.entry_not_mem_tree, fun name live other => rooted.reaches_tree live⟩
      intro name live inner
      obtain ⟨parent, immediate⟩ :=
        ImmediatelyDominates.exists_of_reaches (rooted.live_iff.mp live) inner
      exact ⟨parent, immediate, rooted.mem_tree_iff_eq immediate live⟩
    · intro name parent
      rw [rooted.getElem?_parents]
      constructor
      · exact fun child => ⟨entry, rfl, child⟩
      · rintro ⟨_, ⟨⟩, child⟩
        exact child

/-- Two blocks that lead to each other and can both be entered from outside, a block behind
them, and a dead block that leads there as well. -/
def weaving : Function where
  name := "main"
  params := [⟨"c", .primitive "bool"⟩]
  body := [
    .instr (.br "c" "a" "b"),
    .label "a",
    .instr (.assign "not" "c" (.primitive "bool") ["c"]),
    .instr (.br "c" "b" "out"),
    .label "b",
    .instr (.br "c" "a" "out"),
    .label "dead",
    .instr (.jmp "out"),
    .label "out",
    .instr (.ret ["c"])]

/-- Neither of the two blocks is above the one behind them, also once the graph is converted. -/
theorem dominatorTree_is_dominance_weaving :
    ∃ g h edges tree, ofFunction weaving true = .ok g ∧ h = g.convertAll [{}] ∧ g ≠ h ∧
      h.edges = .ok edges ∧ h.dominatorTree = .ok tree ∧ "dead" ∉ tree ∧
      (treeParents tree)["out"]? = some "bb1" ∧
      ImmediatelyDominates h.successors "bb1" "bb1" "out" ∧
      ¬ Dominates h.successors "bb1" "a" "out" := by
  have facts : (ofFunction weaving true).toOption.any (fun g =>
      (g.convertAll [{}]).edges.toOption.any fun _ =>
      (g.convertAll [{}]).dominatorTree.toOption.any fun tree =>
        g ≠ g.convertAll [{}] ∧ FlowGraph.entry? (g.convertAll [{}]) = some "bb1" ∧
        ¬ (g.convertAll [{}]).Live "dead" ∧ (g.convertAll [{}]).Live "a" ∧
        (g.convertAll [{}]).Live "out" ∧ "out" ∈ tree.image "bb1" ∧
        "out" ∉ tree.reachable "a") = true := by decide +kernel
  obtain ⟨g, built, facts⟩ := exists_ok_of_any facts
  obtain ⟨edges, found, facts⟩ := exists_ok_of_any facts
  obtain ⟨tree, isTree, facts⟩ := exists_ok_of_any facts
  obtain ⟨changed, root, dead, inner, last, child, apart⟩ := of_decide_eq_true facts
  obtain ⟨_, same, keys, atEntry, parents⟩ :=
    dominatorTree_is_dominance weaving true g _ built [{}] rfl edges found
  cases isTree.symm.trans same
  obtain ⟨children, _, descends⟩ := atEntry "bb1" root
  obtain ⟨parent, immediate, isParent⟩ := children "out" last (by decide)
  cases (isParent "bb1").mp child
  refine ⟨g, _, edges, tree, built, rfl, changed, found, isTree, fun key => dead ((keys _).mp key),
    (parents _ _).mpr ⟨"bb1", root, last, by decide, immediate⟩, immediate, ?_⟩
  intro dominates
  exact apart (Relation.mem_reachable.mpr
    ⟨(keys "a").mpr inner, (descends "a" inner "out").mpr ⟨last, dominates⟩⟩)

end SsaForm.FlowGraph
