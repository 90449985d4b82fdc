import SsaForm.Proofs.Dominance.Solution

/-!
# The dominator sets hold dominance

With the predecessors that belong to the successors, an update never takes out a dominator:
a strict dominator of a node dominates every predecessor that the entry reaches, and the
others still have all nodes in their sets. Conversely the equations lead along any path from
the node back to the entry. So the solution is dominance on the nodes that the entry reaches.
-/

namespace SsaForm.Dominance

variable {κ : Type} [Ord κ] [Std.TransOrd κ] [Std.LawfulEqOrd κ]

/-- No dominator has been taken out of a set, and the nodes that the entry does not reach
have kept all nodes. -/
structure Covering (nodes : List κ) (successors : Relation κ) (entry : κ)
    (sets : Relation κ) : Prop where
  keys : ∀ k, k ∈ sets ↔ k ∈ nodes
  dominators : ∀ node, successors.Reaches entry node →
    ∀ d, Dominates successors entry d node → d ∈ sets.image node
  unreached : ∀ k ∈ nodes, ¬ successors.Reaches entry k → sets.image k = .ofList nodes

variable {nodes : List κ} {successors : Relation κ} {entry : κ}

theorem covering_initial (listed : ∀ k, successors.Reaches entry k → k ∈ nodes) :
    Covering nodes successors entry (initial nodes entry) := by
  have entryListed : entry ∈ nodes := listed entry (.refl successors entry)
  refine ⟨fun k => mem_initial entryListed, ?_, ?_⟩
  · intro node reached d dominates
    by_cases first : node = entry
    · subst first
      rw [image_initial_entry, KeySet.mem_ofList, dominates.eq_entry]
      exact List.mem_cons_self
    · rw [image_initial (listed node reached) first, KeySet.mem_ofList]
      exact listed d (dominates.reaches reached)
  · intro k isListed unreached
    apply image_initial isListed
    intro first
    subst first
    exact unreached (.refl successors k)

/-- The equations ask for every dominator of a reached node. -/
theorem Covering.mem_equation {sets : Relation κ} (covering : Covering nodes successors entry sets)
    (listed : ∀ k, successors.Reaches entry k → k ∈ nodes) {node d : κ}
    (reached : successors.Reaches entry node) (inner : node ≠ entry)
    (dominates : Dominates successors entry d node) :
    d ∈ equation successors.converse sets node := by
  rw [Dominance.mem_equation]
  by_cases distinct : d = node
  · exact .inl distinct
  refine .inr ⟨?_, ?_⟩
  · obtain ⟨visited, path⟩ := reached
    cases path with
    | start => exact absurd rfl inner
    | step before related =>
      exact ⟨_, Relation.mem_image_converse.mpr related,
        (covering.keys _).mpr (listed _ before.reaches)⟩
  · intro p before key
    have related := Relation.mem_image_converse.mp before
    by_cases onPath : successors.Reaches entry p
    · exact covering.dominators p onPath d
        (StrictlyDominates.dominates_predecessor ⟨dominates, distinct⟩ related)
    · rw [covering.unreached p ((covering.keys p).mp key) onPath, KeySet.mem_ofList]
      exact listed d (dominates.reaches reached)

theorem Covering.update {sets : Relation κ} (covering : Covering nodes successors entry sets)
    (listed : ∀ k, successors.Reaches entry k → k ∈ nodes) {node : κ}
    (reached : successors.Reaches entry node) (inner : node ≠ entry) :
    Covering nodes successors entry
      (sets.insert node (equation successors.converse sets node)) := by
  refine ⟨?_, ?_, ?_⟩
  · intro k
    rw [Relation.mem_insert_of_mem ((covering.keys node).mpr (listed node reached)), covering.keys]
  · intro k onPath d dominates
    by_cases updated : k = node
    · subst updated
      rw [Relation.image_insert_self]
      exact covering.mem_equation listed reached inner dominates
    · rw [Relation.image_insert_of_ne updated]
      exact covering.dominators k onPath d dominates
  · intro k isListed unreached
    have distinct : k ≠ node := fun same => unreached (same ▸ reached)
    rw [Relation.image_insert_of_ne distinct]
    exact covering.unreached k isListed unreached

variable [DecidableEq κ]

theorem covering_solve (listed : ∀ k, successors.Reaches entry k → k ∈ nodes) :
    Covering nodes successors entry
      (solve nodes successors successors.converse entry).sets := by
  apply solve_preserves _ (listed entry (.refl successors entry)) ?_ (covering_initial listed)
  intro node swept sets covering
  obtain ⟨reached, inner⟩ := mem_innerOrder.mp swept
  exact covering.update listed reached inner

/-- What is left in a set at the end lies on every path: the equations lead back along it. -/
theorem dominates_of_mem_solve (listed : ∀ k, successors.Reaches entry k → k ∈ nodes)
    {node d : κ}
    (membership : d ∈ (solve nodes successors successors.converse entry).sets.image node) :
    Dominates successors entry d node := by
  have entryListed : entry ∈ nodes := listed entry (.refl successors entry)
  intro visited path
  induction path with
  | start =>
    rw [image_solve_entry entryListed, KeySet.mem_ofList] at membership
    exact membership
  | @step visited last next path related inductionHypothesis =>
    by_cases first : next = entry
    · rw [first, image_solve_entry entryListed, KeySet.mem_ofList, List.mem_singleton] at membership
      rw [membership, first]
      exact List.mem_cons_self
    · rw [mem_solve_sets listed (path.step related).reaches first, Dominance.mem_equation]
        at membership
      rcases membership with rfl | ⟨_, shared⟩
      · exact List.mem_cons_self
      · apply List.mem_cons_of_mem
        apply inductionHypothesis
        exact shared last (Relation.mem_image_converse.mpr related)
          (((covering_solve listed).keys last).mpr (listed last path.reaches))

/-- On the nodes that the entry reaches the solution is dominance. -/
theorem mem_solve_iff_dominates (listed : ∀ k, successors.Reaches entry k → k ∈ nodes)
    {node d : κ} (reached : successors.Reaches entry node) :
    d ∈ (solve nodes successors successors.converse entry).sets.image node ↔
      Dominates successors entry d node :=
  ⟨dominates_of_mem_solve listed, (covering_solve listed).dominators node reached d⟩

omit [DecidableEq κ] in
/-- Listing the entry and every mentioned node lists all that the entry reaches. -/
theorem listed_of_carrier (entryListed : entry ∈ nodes)
    (carrierListed : ∀ k ∈ successors.carrier, k ∈ nodes) :
    ∀ k, successors.Reaches entry k → k ∈ nodes := by
  intro k reached
  obtain ⟨visited, path⟩ := reached
  cases path with
  | start => exact entryListed
  | step _ related => exact carrierListed _ (Relation.mem_carrier.mpr (.inr ⟨_, related⟩))

end SsaForm.Dominance
