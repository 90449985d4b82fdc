import SsaForm.Proofs.Relation.Basic
import SsaForm.Proofs.Relation.Path
import SsaForm.Relation.Postorder

/-!
# What the depth-first walk finds

The walk lists a node if it is still to be left, or if some pending visit leads to it
through nodes that have not been entered. Started at a key with all nodes unseen it
therefore lists exactly the nodes that the key reaches.
-/

namespace SsaForm.Relation

variable {κ : Type} [Ord κ] [Std.TransOrd κ] [Std.LawfulEqOrd κ]

@[simp] theorem enter_mem_visits {r : Relation κ} {unseen : KeySet κ} {node next : κ} :
    .enter next ∈ r.visits unseen node ↔ next ∈ r.image node ∧ next ∈ unseen := by
  simp [visits]

omit [Std.LawfulEqOrd κ] in
@[simp] theorem leave_not_mem_visits {r : Relation κ} {unseen : KeySet κ} {node left : κ} :
    .leave left ∉ r.visits unseen node := by
  simp [visits]

theorem mem_walk {r : Relation κ} {unseen : KeySet κ} {stack : List (Visit κ)} {node : κ} :
    node ∈ walk r unseen stack ↔
      .leave node ∈ stack ∨ ∃ start, .enter start ∈ stack ∧ r.ReachesWithin unseen start node := by
  fun_induction walk r unseen stack with
  | case1 => simp
  | case2 unseen left rest inductionHypothesis =>
    simp [inductionHypothesis, or_assoc]
  | case3 unseen entered rest unvisited inductionHypothesis =>
    rw [inductionHypothesis]
    have smaller : ∀ k, k ∈ unseen.erase entered → k ∈ unseen := fun _ =>
      Std.ExtTreeSet.mem_of_mem_erase
    simp only [List.mem_append, List.mem_cons, reduceCtorEq, Visit.leave.injEq, Visit.enter.injEq,
      false_or, enter_mem_visits, leave_not_mem_visits]
    constructor
    · intro found
      rcases found with (rfl | waiting) | ⟨start, ⟨child, _⟩ | pending, reached⟩
      · exact .inr ⟨node, .inl rfl, .refl unvisited⟩
      · exact .inl waiting
      · exact .inr ⟨entered, .inl rfl, .cons unvisited child (reached.mono smaller)⟩
      · exact .inr ⟨start, .inr pending, reached.mono smaller⟩
    · intro found
      rcases found with waiting | ⟨start, pending, reached⟩
      · exact .inl (.inr waiting)
      -- A path that meets the entered node is taken up again behind its last visit to it.
      rcases reached.remove (· = entered) (fun k => KeySet.mem_erase_of_ne) with
        avoiding | ⟨_, _, rfl, rfl | ⟨child, related, onward⟩⟩
      · rcases pending with rfl | pending
        · have impossible := avoiding.start_mem
          simp at impossible
        · exact .inr ⟨start, .inr pending, avoiding⟩
      · exact .inl (.inl rfl)
      · exact .inr ⟨child, .inl ⟨related, onward.start_mem⟩, onward⟩
  | case4 unseen entered rest seen inductionHypothesis =>
    rw [inductionHypothesis]
    simp only [List.mem_cons, reduceCtorEq, false_or, Visit.enter.injEq]
    refine or_congr_right ⟨?_, ?_⟩
    · intro found
      obtain ⟨start, pending, reached⟩ := found
      exact ⟨start, .inr pending, reached⟩
    · intro found
      obtain ⟨start, rfl | pending, reached⟩ := found
      · exact absurd reached.start_mem seen
      · exact ⟨start, pending, reached⟩

theorem Path.subset_carrier {r : Relation κ} {start node : κ} {visited : List κ}
    (path : r.Path start visited node) (membership : start ∈ r.carrier) :
    ∀ k ∈ visited, k ∈ r.carrier := by
  induction path with
  | start =>
    intro k passed
    rwa [List.mem_singleton.mp passed]
  | @step visited last next path related inductionHypothesis =>
    intro k passed
    rcases List.mem_cons.mp passed with rfl | earlier
    · exact mem_carrier.mpr (.inr ⟨last, related⟩)
    · exact inductionHypothesis k earlier

theorem mem_postorder {r : Relation κ} {start node : κ} :
    node ∈ r.postorder start ↔ start ∈ r ∧ r.Reaches start node := by
  rw [postorder]
  split
  next key =>
    have mentioned : start ∈ r.carrier := mem_carrier.mpr (.inl key)
    simp only [mem_walk, List.mem_singleton, reduceCtorEq, false_or, Visit.enter.injEq,
      exists_eq_left, key, true_and]
    constructor
    · intro found
      obtain ⟨visited, path, _⟩ := found
      exact ⟨visited, path⟩
    · intro reached
      obtain ⟨visited, path⟩ := reached
      exact ⟨visited, path, path.subset_carrier mentioned⟩
  next missing => simp [missing]

theorem mem_reversePostorder {r : Relation κ} {start node : κ} :
    node ∈ r.reversePostorder start ↔ start ∈ r ∧ r.Reaches start node := by
  rw [reversePostorder, List.mem_reverse, mem_postorder]

theorem mem_reachable {r : Relation κ} {start node : κ} :
    node ∈ r.reachable start ↔ start ∈ r ∧ r.Reaches start node := by
  rw [reachable, KeySet.mem_ofList, mem_postorder]

end SsaForm.Relation
