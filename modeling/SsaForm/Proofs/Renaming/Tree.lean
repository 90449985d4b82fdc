import Mathlib.Data.List.Nodup
import SsaForm.Proofs.Dominance.Tree
import SsaForm.Renaming.Tree

/-!
# The unfolded dominator tree

Every step down the dominator tree adds a dominator, so a node with many dominators needs
little depth. Unfolded from the entry to its number of keys, the tree holds every node that
the entry reaches, each once and in preorder.
-/

namespace SsaForm

namespace VisitTree

def root : VisitTree → String
  | .node name _ => name

mutual

/-- The names in visiting order. -/
def names : VisitTree → List String
  | .node name children => name :: forestNames children

def forestNames : List VisitTree → List String
  | [] => []
  | tree :: rest => names tree ++ forestNames rest

end

/-- Every child is related to its parent. -/
inductive Within (r : Relation String) : VisitTree → Prop where
  | node {name : String} {children : List VisitTree}
    (related : ∀ child ∈ children, child.root ∈ r.image name)
    (below : ∀ child ∈ children, Within r child) : Within r (.node name children)

theorem forestNames_map {α : Type} (f : α → VisitTree) (keys : List α) :
    forestNames (keys.map f) = keys.flatMap fun k => (f k).names := by
  induction keys with
  | nil => rfl
  | cons k rest inductionHypothesis =>
    rw [List.map_cons, forestNames, inductionHypothesis, List.flatMap_cons]

theorem root_unfoldTo (r : Relation String) (depth : Nat) (name : String) :
    (unfoldTo r depth name).root = name := by
  cases depth with
  | zero => rfl
  | succ depth => rfl

theorem within_unfoldTo (r : Relation String) (depth : Nat) (name : String) :
    (unfoldTo r depth name).Within r := by
  induction depth generalizing name with
  | zero =>
    exact .node (fun _ member => absurd member List.not_mem_nil)
      fun _ member => absurd member List.not_mem_nil
  | succ depth inductionHypothesis =>
    rw [unfoldTo]
    apply Within.node
    · intro child member
      obtain ⟨k, related, rfl⟩ := List.mem_map.mp member
      rw [root_unfoldTo]
      exact Std.ExtTreeSet.mem_toList.mp related
    · intro child member
      obtain ⟨k, _, rfl⟩ := List.mem_map.mp member
      exact inductionHypothesis k

theorem within_unfold (r : Relation String) (name : String) : (unfold r name).Within r :=
  within_unfoldTo r r.size name

theorem root_unfold (r : Relation String) (name : String) : (unfold r name).root = name :=
  root_unfoldTo r r.size name

end VisitTree

section Preorder

variable {κ : Type} [Ord κ] [Std.TransOrd κ]

mutual

/-- A node and what it dominates in preorder: the node comes first, and behind it what its
children in the dominator tree dominate, child by child in ascending order. -/
inductive Preordered (successors : Relation κ) (entry : κ) : κ → List κ → Prop where
  | node {k : κ} {children below : List κ}
    (ascending : children.Pairwise fun first second => compare first second = .lt)
    (complete : ∀ child, child ∈ children ↔
      successors.Reaches entry child ∧ ImmediatelyDominates successors entry k child)
    (visited : PreorderedForest successors entry children below) :
    Preordered successors entry k (k :: below)

inductive PreorderedForest (successors : Relation κ) (entry : κ) : List κ → List κ → Prop where
  | nil : PreorderedForest successors entry [] []
  | cons {k : κ} {rest first later : List κ} (child : Preordered successors entry k first)
    (siblings : PreorderedForest successors entry rest later) :
    PreorderedForest successors entry (k :: rest) (first ++ later)

end

theorem PreorderedForest.flatMap {successors : Relation κ} {entry : κ} {keys : List κ}
    {below : κ → List κ} (preordered : ∀ k ∈ keys, Preordered successors entry k (below k)) :
    PreorderedForest successors entry keys (keys.flatMap below) := by
  induction keys with
  | nil => exact .nil
  | cons k rest inductionHypothesis =>
    obtain ⟨first, others⟩ := List.forall_mem_cons.mp preordered
    exact .cons first (inductionHypothesis others)

end Preorder

namespace VisitTree

section Dominators

variable {successors dominators : Relation String} {entry : String} {live : KeySet String}

theorem mem_children (isDominance : IsDominance successors entry dominators) {name k : String} :
    k ∈ ((dominatorTree dominators).image name).toList ↔
      successors.Reaches entry k ∧ ImmediatelyDominates successors entry name k := by
  rw [Std.ExtTreeSet.mem_toList, isDominance.mem_dominatorTree]

theorem size_image_le_live (isDominance : IsDominance successors entry dominators)
    (isLive : ∀ k, k ∈ live ↔ successors.Reaches entry k) {name : String}
    (reached : successors.Reaches entry name) : (dominators.image name).size ≤ live.size := by
  apply KeySet.size_le_of_subset
  intro k member
  exact (isLive k).mpr ((isDominance.mem_image.mp member).2.reaches reached)

/-- With enough depth the tree unfolds to all that its root dominates. -/
theorem mem_names_unfoldTo (isDominance : IsDominance successors entry dominators)
    (isLive : ∀ k, k ∈ live ↔ successors.Reaches entry k) {depth : Nat} {name : String}
    (reached : successors.Reaches entry name)
    (deep : live.size < depth + (dominators.image name).size) {k : String} :
    k ∈ (unfoldTo (dominatorTree dominators) depth name).names ↔
      successors.Reaches entry k ∧ Dominates successors entry name k := by
  induction depth generalizing name with
  | zero =>
    have bounded := size_image_le_live isDominance isLive reached
    omega
  | succ depth inductionHypothesis =>
    have below : ∀ child, successors.Reaches entry child →
        ImmediatelyDominates successors entry name child →
        (k ∈ (unfoldTo (dominatorTree dominators) depth child).names ↔
          successors.Reaches entry k ∧ Dominates successors entry child k) := by
      intro child reachedChild immediate
      have larger := isDominance.size_image_lt reachedChild immediate
      exact inductionHypothesis reachedChild (by omega)
    rw [unfoldTo, names, forestNames_map, List.mem_cons, List.mem_flatMap]
    constructor
    · intro member
      rcases member with rfl | ⟨child, listed, inside⟩
      · exact ⟨reached, .refl k⟩
      · obtain ⟨reachedChild, immediate⟩ := (mem_children isDominance).mp listed
        obtain ⟨reachedNode, dominates⟩ := (below child reachedChild immediate).mp inside
        exact ⟨reachedNode, immediate.1.1.trans dominates⟩
    · intro dominated
      obtain ⟨reachedNode, dominates⟩ := dominated
      by_cases same : k = name
      · exact .inl same
      · obtain ⟨child, immediate, onward⟩ :=
          ImmediatelyDominates.exists_below reachedNode ⟨dominates, Ne.symm same⟩
        have reachedChild := onward.reaches reachedNode
        exact .inr ⟨child, (mem_children isDominance).mpr ⟨reachedChild, immediate⟩,
          (below child reachedChild immediate).mpr ⟨reachedNode, onward⟩⟩

/-- No node occurs twice: a child does not dominate its parent, and what two children
dominate is apart. -/
theorem nodup_names_unfoldTo (isDominance : IsDominance successors entry dominators)
    (isLive : ∀ k, k ∈ live ↔ successors.Reaches entry k) {depth : Nat} {name : String}
    (reached : successors.Reaches entry name)
    (deep : live.size < depth + (dominators.image name).size) :
    (unfoldTo (dominatorTree dominators) depth name).names.Nodup := by
  induction depth generalizing name with
  | zero => simp [unfoldTo, names, forestNames]
  | succ depth inductionHypothesis =>
    have deepBelow : ∀ child, successors.Reaches entry child →
        ImmediatelyDominates successors entry name child →
        live.size < depth + (dominators.image child).size := by
      intro child reachedChild immediate
      have larger := isDominance.size_image_lt reachedChild immediate
      omega
    have dominated : ∀ {child k}, child ∈ ((dominatorTree dominators).image name).toList →
        k ∈ (unfoldTo (dominatorTree dominators) depth child).names →
        ImmediatelyDominates successors entry name child ∧ successors.Reaches entry k ∧
          Dominates successors entry child k := by
      intro child k listed inside
      obtain ⟨reachedChild, immediate⟩ := (mem_children isDominance).mp listed
      exact ⟨immediate, (mem_names_unfoldTo isDominance isLive reachedChild
        (deepBelow child reachedChild immediate)).mp inside⟩
    rw [unfoldTo, names, forestNames_map, List.nodup_cons, List.nodup_flatMap, List.mem_flatMap]
    refine ⟨?_, ?_, ?_⟩
    · intro again
      obtain ⟨child, listed, inside⟩ := again
      obtain ⟨immediate, _, back⟩ := dominated listed inside
      exact immediate.1.2 (Dominates.antisymm reached immediate.1.1 back)
    · intro child listed
      obtain ⟨reachedChild, immediate⟩ := (mem_children isDominance).mp listed
      exact inductionHypothesis reachedChild (deepBelow child reachedChild immediate)
    · refine List.Pairwise.imp_of_mem ?_ (KeySet.nodup_toList _)
      intro first second firstListed secondListed apart k inFirst inSecond
      obtain ⟨one, reachedNode, upper⟩ := dominated firstListed inFirst
      obtain ⟨two, _, lower⟩ := dominated secondListed inSecond
      exact apart (ImmediatelyDominates.siblings_eq reachedNode one two upper lower)

/-- With enough depth the tree unfolds in preorder. -/
theorem preordered_unfoldTo (isDominance : IsDominance successors entry dominators)
    (isLive : ∀ k, k ∈ live ↔ successors.Reaches entry k) {depth : Nat} {name : String}
    (reached : successors.Reaches entry name)
    (deep : live.size < depth + (dominators.image name).size) :
    Preordered successors entry name (unfoldTo (dominatorTree dominators) depth name).names := by
  induction depth generalizing name with
  | zero =>
    have bounded := size_image_le_live isDominance isLive reached
    omega
  | succ depth inductionHypothesis =>
    rw [unfoldTo, names, forestNames_map]
    refine .node Std.ExtTreeSet.ordered_toList (fun _ => mem_children isDominance)
      (.flatMap fun child listed => ?_)
    obtain ⟨reachedChild, immediate⟩ := (mem_children isDominance).mp listed
    have larger := isDominance.size_image_lt reachedChild immediate
    exact inductionHypothesis reachedChild (by omega)

/-- The number of keys is enough depth to unfold the tree from the entry. -/
theorem deep_unfold (isDominance : IsDominance successors entry dominators)
    (isLive : ∀ k, k ∈ live ↔ successors.Reaches entry k) :
    live.size < (dominatorTree dominators).size + (dominators.image entry).size := by
  have keys : live.size ≤ (dominatorTree dominators).size := by
    apply Nat.le_trans (KeySet.size_le_of_subset (t := (dominatorTree dominators).domain) ?_)
      Relation.size_domain_le
    intro k member
    exact Relation.mem_domain.mpr (isDominance.mem_dominatorTree_keys.mpr ((isLive k).mp member))
  have own : 0 < (dominators.image entry).size := by
    apply KeySet.size_pos_of_mem
    exact isDominance.mem_image.mpr ⟨.refl successors entry, .refl entry⟩
  omega

theorem preordered_unfold (isDominance : IsDominance successors entry dominators)
    (isLive : ∀ k, k ∈ live ↔ successors.Reaches entry k) :
    Preordered successors entry entry (unfold (dominatorTree dominators) entry).names :=
  preordered_unfoldTo isDominance isLive (.refl successors entry) (deep_unfold isDominance isLive)

/-- The tree unfolds to the nodes that the entry reaches, each once. -/
theorem names_unfold (isDominance : IsDominance successors entry dominators)
    (isLive : ∀ k, k ∈ live ↔ successors.Reaches entry k) :
    (∀ k, k ∈ (unfold (dominatorTree dominators) entry).names ↔ successors.Reaches entry k) ∧
    (unfold (dominatorTree dominators) entry).names.Nodup := by
  have reached : successors.Reaches entry entry := .refl successors entry
  have deep := deep_unfold isDominance isLive
  refine ⟨?_, nodup_names_unfoldTo isDominance isLive reached deep⟩
  intro k
  rw [unfold, mem_names_unfoldTo isDominance isLive reached deep]
  exact and_iff_left (.entry_left k)

end Dominators

end VisitTree

end SsaForm
