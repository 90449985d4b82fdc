import SsaForm.Proofs.Dominance.Solution

/-!
# The greatest solution of the equations

The solver can be given any predecessors, not only those that belong to the successors. Where
all nodes that the entry reaches are listed it still solves the equations, and no solution has
more in any of its sets: every solution is part of the sets at the start, and what is asked of
larger sets is at least what the solution holds.
-/

namespace SsaForm.Dominance

variable {κ : Type} [Ord κ] [Std.TransOrd κ] [Std.LawfulEqOrd κ]

/-- A map from the listed nodes to sets of listed nodes that satisfies the equations: the entry
has itself only, and any other node that the entry reaches has itself and what the sets of its
listed predecessors share, which is nothing if there are none. -/
structure Solves (nodes : List κ) (successors predecessors : Relation κ) (entry : κ)
    (sets : Relation κ) : Prop where
  keys : ∀ k, k ∈ sets ↔ k ∈ nodes
  bounded : ∀ k d, d ∈ sets.image k → d ∈ nodes
  atEntry : ∀ d, d ∈ sets.image entry ↔ d = entry
  atInner : ∀ node, successors.Reaches entry node → node ≠ entry → ∀ d, d ∈ sets.image node ↔
    d = node ∨ ((∃ p ∈ predecessors.image node, p ∈ nodes) ∧
      ∀ p ∈ predecessors.image node, p ∈ nodes → d ∈ sets.image p)

namespace Solves

variable {nodes : List κ} {successors predecessors solution : Relation κ} {entry : κ}

theorem mem_image_iff (solves : Solves nodes successors predecessors entry solution) {node d : κ}
    (reached : successors.Reaches entry node) (inner : node ≠ entry) :
    d ∈ solution.image node ↔ d ∈ equation predecessors solution node := by
  rw [solves.atInner node reached inner, mem_equation]
  simp only [solves.keys]

theorem partOf_initial (solves : Solves nodes successors predecessors entry solution) :
    solution.PartOf (initial nodes entry) := by
  intro k d related
  by_cases first : k = entry
  · subst first
    rw [image_initial_entry, KeySet.mem_ofList, (solves.atEntry d).mp related]
    exact List.mem_cons_self
  · rw [image_initial ((solves.keys k).mp (Relation.mem_of_mem_image related)) first,
      KeySet.mem_ofList]
    exact solves.bounded k d related

/-- An update keeps a solution part of the sets. -/
theorem partOf_update (solves : Solves nodes successors predecessors entry solution)
    {sets : Relation κ} (keys : ∀ k, k ∈ sets ↔ k ∈ nodes) (part : solution.PartOf sets) {node : κ}
    (reached : successors.Reaches entry node) (inner : node ≠ entry) :
    solution.PartOf (sets.insert node (equation predecessors sets node)) := by
  intro k d related
  by_cases updated : k = node
  · subst updated
    rw [Relation.image_insert_self]
    exact equation_mono (fun p => (solves.keys p).trans (keys p).symm) part
      ((solves.mem_image_iff reached inner).mp related)
  · rw [Relation.image_insert_of_ne updated]
    exact part k d related

variable [DecidableEq κ]

/-- Every solution is part of what the solver finds. -/
theorem partOf_solve (solves : Solves nodes successors predecessors entry solution)
    (listed : ∀ k, successors.Reaches entry k → k ∈ nodes) :
    solution.PartOf (solve nodes successors predecessors entry).sets := by
  have entryListed : entry ∈ nodes := listed entry (.refl successors entry)
  refine (solve_preserves (fun sets => (∀ k, k ∈ sets ↔ k ∈ nodes) ∧ solution.PartOf sets)
    entryListed ?_ ⟨fun k => mem_initial entryListed, solves.partOf_initial⟩).2
  rintro node swept sets ⟨keys, part⟩
  obtain ⟨reached, inner⟩ := mem_innerOrder.mp swept
  have key : node ∈ sets := (keys node).mpr (listed node reached)
  exact ⟨fun k => (Relation.mem_insert_of_mem key).trans (keys k),
    solves.partOf_update keys part reached inner⟩

end Solves

variable [DecidableEq κ] {nodes : List κ} {successors predecessors : Relation κ} {entry : κ}

/-- What the solver finds is a solution. -/
theorem solves_solve (listed : ∀ k, successors.Reaches entry k → k ∈ nodes) :
    Solves nodes successors predecessors entry
      (solve nodes successors predecessors entry).sets := by
  have settled : (solve nodes successors predecessors entry).stable = true ∧ _ :=
    solve_settles listed
  obtain ⟨_, descending⟩ := settled
  refine ⟨descending.keys, descending.bounded, ?_, ?_⟩
  · intro d
    rw [image_solve_entry (listed entry (.refl successors entry)), KeySet.mem_ofList,
      List.mem_singleton]
  · intro node reached inner d
    rw [mem_solve_sets listed reached inner, mem_equation]
    simp only [descending.keys]

/-- The solver finds the greatest solution for any predecessors. Where the entry and all nodes
that it reaches are listed the sweeps come to one that changes nothing, the sets that are left
satisfy the equations, and every map that satisfies them has at each node no more than these
sets. Listed nodes that the entry does not reach have all listed nodes. -/
theorem solve_isGreatest (nodes : List κ) (successors predecessors : Relation κ) (entry : κ)
    (entryListed : entry ∈ nodes) (listed : ∀ k, successors.Reaches entry k → k ∈ nodes) :
    let solution := solve nodes successors predecessors entry
    (solution.stable = true ∧
      Settles (sweep predecessors (innerOrder successors entry)) (initial nodes entry)
        solution.sets) ∧
    Solves nodes successors predecessors entry solution.sets ∧
    (∀ other, Solves nodes successors predecessors entry other → other.PartOf solution.sets) ∧
    ∀ node ∈ nodes, ¬ successors.Reaches entry node →
      solution.sets[node]? = some (.ofList nodes) := by
  have solves : Solves nodes successors predecessors entry
      (solve nodes successors predecessors entry).sets := solves_solve listed
  have stable : (solve nodes successors predecessors entry).stable = true :=
    (solve_settles listed).1
  refine ⟨⟨stable, settles_solve entryListed stable⟩, solves,
    fun other otherSolves => otherSolves.partOf_solve listed, ?_⟩
  intro node isListed unreached
  have unswept : node ∉ innerOrder successors entry :=
    fun swept => unreached (mem_innerOrder.mp swept).1
  have inner : node ≠ entry := by
    rintro rfl
    exact unreached (.refl successors node)
  rw [Relation.getElem?_eq_some_image ((solves.keys node).mpr isListed),
    image_solve_sets entryListed unswept, image_initial isListed inner]

/-- Nodes in a row. -/
def row : Relation Nat :=
  .relating [(0, [1]), (1, [2]), (2, [3])]

/-- Predecessors that do not belong to the row: one that is not reached, none at all, and the
node itself beside one that is listed and one that is not. -/
def foreign : Relation Nat :=
  .relating [(1, [4]), (3, [2, 3, 9])]

/-- The node that precedes itself keeps what the other predecessor has, although it would be a
solution to drop it. -/
theorem solve_isGreatest_foreign :
    let solution := solve [0, 1, 2, 3, 4] row foreign 0
    (0 ∈ [0, 1, 2, 3, 4] ∧ ∀ k, row.Reaches 0 k → k ∈ [0, 1, 2, 3, 4]) ∧
      Solves [0, 1, 2, 3, 4] row foreign 0 solution.sets ∧
      solution.sets[1]? = some (.ofList [0, 1, 2, 3, 4]) ∧
      solution.sets[2]? = some (.ofList [2]) ∧ solution.sets[3]? = some (.ofList [2, 3]) ∧
      solution.sets[4]? = some (.ofList [0, 1, 2, 3, 4]) := by
  have reachable : ∀ k ∈ (row.reachable 0).toList, k ∈ [0, 1, 2, 3, 4] := by decide +kernel
  have key : 0 ∈ row := by decide +kernel
  have listed : ∀ k, row.Reaches 0 k → k ∈ [0, 1, 2, 3, 4] := fun k reached =>
    reachable k (Std.ExtTreeSet.mem_toList.mpr (Relation.mem_reachable.mpr ⟨key, reached⟩))
  have unreached : ¬ row.Reaches 0 4 := fun reached => by
    have missing : 4 ∉ row.reachable 0 := by decide +kernel
    exact missing (Relation.mem_reachable.mpr ⟨key, reached⟩)
  obtain ⟨_, solves, _, others⟩ :=
    solve_isGreatest [0, 1, 2, 3, 4] row foreign 0 (by decide) listed
  exact ⟨⟨by decide, listed⟩, solves, by decide +kernel, by decide +kernel, by decide +kernel,
    others 4 (by decide) unreached⟩

end SsaForm.Dominance
