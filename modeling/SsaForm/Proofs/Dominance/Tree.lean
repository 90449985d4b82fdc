import SsaForm.Dominance.Frontier
import SsaForm.Dominance.Tree
import SsaForm.Proofs.Dominance.Basic
import SsaForm.Proofs.Relation.Basic

/-!
# Frontiers and the dominator tree

Both are computed from dominator sets alone. If the sets hold dominance on the nodes that
the entry reaches, the frontier of a node is where its dominance ends and the children of a
node are the nodes that it immediately dominates. So what lies below a node in the tree is
what it dominates.
-/

namespace SsaForm

variable {κ : Type} [Ord κ] [Std.TransOrd κ]

/-- The sets hold the dominators of the nodes that the entry reaches, and of no others. -/
structure IsDominance (successors : Relation κ) (entry : κ) (dominators : Relation κ) :
    Prop where
  keys : ∀ k, k ∈ dominators ↔ successors.Reaches entry k
  members : ∀ k, successors.Reaches entry k →
    ∀ d, d ∈ dominators.image k ↔ Dominates successors entry d k

namespace IsDominance

variable {successors : Relation κ} {entry : κ} {dominators : Relation κ}

theorem mem_image (isDominance : IsDominance successors entry dominators) {k d : κ} :
    d ∈ dominators.image k ↔ successors.Reaches entry k ∧ Dominates successors entry d k := by
  constructor
  · intro member
    have reached := (isDominance.keys k).mp (Relation.mem_of_mem_image member)
    exact ⟨reached, (isDominance.members k reached d).mp member⟩
  · intro dominated
    exact (isDominance.members k dominated.1 d).mpr dominated.2

variable [Std.LawfulEqOrd κ]

/-- The frontier of a node holds the successors of what it dominates, as far as it does not
strictly dominate them. -/
theorem mem_frontiers [DecidableEq κ] (isDominance : IsDominance successors entry dominators)
    {live : KeySet κ} (isLive : ∀ k, k ∈ live ↔ successors.Reaches entry k) {d m : κ} :
    m ∈ (frontiers dominators (successors.restrict live)).image d ↔
      successors.Reaches entry d ∧
        (∃ p, successors.Reaches entry p ∧ Dominates successors entry d p ∧
          m ∈ successors.image p) ∧
        ¬ StrictlyDominates successors entry d m := by
  have dominated : ∀ k, k ∈ dominators.converse.image d ↔
      successors.Reaches entry k ∧ Dominates successors entry d k := fun k =>
    Relation.mem_image_converse.trans isDominance.mem_image
  rw [frontiers, Relation.image_tabulate]
  split
  next key =>
    have reached := (isDominance.keys d).mp (Relation.mem_domain.mp key)
    simp only [KeySet.mem_select, KeySet.mem_flatMap, dominated, Relation.mem_image_restrict,
      isLive, Bool.or_eq_true, decide_eq_true_eq]
    constructor
    · intro selected
      obtain ⟨⟨p, ⟨onPath, dominates⟩, _, related⟩, ends⟩ := selected
      refine ⟨reached, ⟨p, onPath, dominates, related⟩, ?_⟩
      intro still
      rcases ends with same | outside
      · exact still.2 same.symm
      · exact outside ⟨onPath.step related, still.1⟩
    · intro ended
      obtain ⟨_, ⟨p, onPath, dominates, related⟩, ends⟩ := ended
      refine ⟨⟨p, ⟨onPath, dominates⟩, onPath, related⟩, ?_⟩
      by_cases same : m = d
      · exact .inl same
      · exact .inr fun still => ends ⟨still.2, Ne.symm same⟩
  next missing =>
    refine iff_of_false Std.ExtTreeSet.not_mem_empty ?_
    intro ended
    exact missing (Relation.mem_domain.mpr ((isDominance.keys d).mpr ended.1))

theorem mem_frontiers_keys [DecidableEq κ]
    (isDominance : IsDominance successors entry dominators) {related : Relation κ} {d : κ} :
    d ∈ frontiers dominators related ↔ successors.Reaches entry d := by
  rw [frontiers, KeySet.mem_tabulate, Relation.mem_domain, isDominance.keys]

theorem mem_below (isDominance : IsDominance successors entry dominators) {parent child : κ} :
    child ∈ dominators.irreflexive.converse.image parent ↔
      successors.Reaches entry child ∧ StrictlyDominates successors entry parent child := by
  rw [Relation.mem_image_converse, Relation.mem_image_irreflexive, isDominance.mem_image,
    StrictlyDominates, and_assoc]

/-- The children of a node in the tree are the nodes that it immediately dominates. -/
theorem mem_dominatorTree (isDominance : IsDominance successors entry dominators)
    {parent child : κ} :
    child ∈ (dominatorTree dominators).image parent ↔
      successors.Reaches entry child ∧ ImmediatelyDominates successors entry parent child := by
  simp only [dominatorTree, Relation.mem_image_difference, Relation.mem_image_compose,
    isDominance.mem_below]
  constructor
  · intro child
    obtain ⟨⟨reached, strict⟩, direct⟩ := child
    refine ⟨reached, (ImmediatelyDominates.iff_no_middle reached).mpr ⟨strict, ?_⟩⟩
    intro between
    obtain ⟨middle, upper, lower⟩ := between
    exact direct ⟨middle, ⟨lower.1.reaches reached, upper⟩, reached, lower⟩
  · intro closest
    obtain ⟨reached, immediate⟩ := closest
    obtain ⟨strict, direct⟩ := (ImmediatelyDominates.iff_no_middle reached).mp immediate
    refine ⟨⟨reached, strict⟩, ?_⟩
    intro between
    obtain ⟨middle, ⟨_, upper⟩, _, lower⟩ := between
    exact direct ⟨middle, upper, lower⟩

/-- A child has one dominator more than its parent. -/
theorem size_image_lt (isDominance : IsDominance successors entry dominators) {parent child : κ}
    (reached : successors.Reaches entry child)
    (immediate : ImmediatelyDominates successors entry parent child) :
    (dominators.image parent).size < (dominators.image child).size := by
  apply KeySet.size_lt_of_subset (k := child)
  · intro k dominates
    have above := (isDominance.mem_image.mp dominates).2
    exact isDominance.mem_image.mpr ⟨reached, above.trans immediate.1.1⟩
  · exact isDominance.mem_image.mpr ⟨reached, .refl child⟩
  · intro dominates
    obtain ⟨reachedParent, back⟩ := isDominance.mem_image.mp dominates
    exact immediate.1.2 (Dominates.antisymm reachedParent immediate.1.1 back)

theorem mem_dominatorTree_keys (isDominance : IsDominance successors entry dominators) {k : κ} :
    k ∈ dominatorTree dominators ↔ successors.Reaches entry k := by
  rw [dominatorTree, Relation.mem_difference, Relation.mem_converse, Relation.mem_carrier,
    Relation.mem_irreflexive, isDominance.keys]
  constructor
  · intro mentioned
    rcases mentioned with reached | ⟨source, related⟩
    · exact reached
    · have member := (Relation.mem_image_irreflexive.mp related).1
      obtain ⟨reached, dominates⟩ := isDominance.mem_image.mp member
      exact dominates.reaches reached
  · exact .inl

/-- What the tree leads to from a node is what the node dominates. -/
theorem reaches_dominatorTree (isDominance : IsDominance successors entry dominators) {node k : κ}
    (reached : successors.Reaches entry node) :
    (dominatorTree dominators).Reaches node k ↔
      successors.Reaches entry k ∧ Dominates successors entry node k := by
  constructor
  · rintro ⟨visited, path⟩
    induction path with
    | start => exact ⟨reached, .refl node⟩
    | step _ related inductionHypothesis =>
      obtain ⟨reachedChild, immediate⟩ := isDominance.mem_dominatorTree.mp related
      exact ⟨reachedChild, inductionHypothesis.2.trans immediate.1.1⟩
  · rintro ⟨reachedNode, dominates⟩
    -- Above a node other than the root of the descent stands its parent, which is dominated too.
    refine StrictlyDominates.induction (motive := fun k => Dominates successors entry node k →
      (dominatorTree dominators).Reaches node k) ?_ reachedNode dominates
    intro k reachedNode inductionHypothesis dominates
    by_cases same : node = k
    · subst same
      exact .refl _ node
    · have inner : k ≠ entry := by
        rintro rfl
        exact same dominates.eq_entry
      obtain ⟨parent, immediate⟩ := ImmediatelyDominates.exists_of_reaches reachedNode inner
      have above := inductionHypothesis parent immediate.1 (immediate.2 node ⟨dominates, same⟩)
      exact above.step (isDominance.mem_dominatorTree.mpr ⟨reachedNode, immediate⟩)

end IsDominance

/-- In a relation where no node has two parents the parents are found by their children. -/
theorem getElem?_treeParents [Std.LawfulEqOrd κ] {tree : Relation κ}
    (unique : ∀ child first second, child ∈ tree.image first → child ∈ tree.image second →
      first = second) {child parent : κ} :
    (treeParents tree)[child]? = some parent ↔ child ∈ tree.image parent := by
  have listed : ∀ {pair : κ × KeySet κ}, pair ∈ tree.toList → tree.image pair.1 = pair.2 :=
    fun member => Relation.image_eq_of_getElem?
      (Std.ExtTreeMap.mem_toList_iff_getElem?_eq_some.mp member)
  unfold treeParents
  rw [Table.getElem?_ofList_iff, List.mem_flatMap]
  · constructor
    · rintro ⟨⟨other, children⟩, member, inside⟩
      obtain ⟨k, below, equal⟩ := List.mem_map.mp inside
      obtain ⟨rfl, rfl⟩ := (Prod.mk.injEq ..).mp equal
      rw [listed member]
      exact Std.ExtTreeSet.mem_toList.mp below
    · intro related
      refine ⟨(parent, tree.image parent), ?_, ?_⟩
      · apply Std.ExtTreeMap.mem_toList_iff_getElem?_eq_some.mpr
        exact Relation.getElem?_eq_some_image (Relation.mem_of_mem_image related)
      · exact List.mem_map.mpr ⟨child, Std.ExtTreeSet.mem_toList.mpr related, rfl⟩
  · rw [List.pairwise_flatMap]
    constructor
    · rintro ⟨other, children⟩ _
      rw [List.pairwise_map]
      exact Std.ExtTreeSet.distinct_toList
    · refine Std.ExtTreeMap.distinct_keys_toList.imp_of_mem ?_
      rintro ⟨first, below⟩ ⟨second, under⟩ firstListed secondListed apart pair inFirst other inSecond
      obtain ⟨k, member, rfl⟩ := List.mem_map.mp inFirst
      obtain ⟨l, again, rfl⟩ := List.mem_map.mp inSecond
      intro equal
      cases Std.LawfulEqOrd.eq_of_compare equal
      apply apart
      rw [unique k first second]
      · exact Std.ReflCmp.compare_self
      · rw [listed firstListed]
        exact Std.ExtTreeSet.mem_toList.mp member
      · rw [listed secondListed]
        exact Std.ExtTreeSet.mem_toList.mp again

end SsaForm
