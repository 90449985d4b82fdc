import SsaForm.Proofs.Dominance.Basic

/-!
# Converging paths

Two paths converge at a node if they first meet there. A node at which the dominance of
another one ends is reached by converging paths from that node and from the entry. And where
the dominance of no maker ends, all paths into a node have met the same maker last, so that
no paths from different makers converge there.
-/

namespace SsaForm

variable {κ : Type} [Ord κ] [Std.TransOrd κ]

/-- Two paths of at least one step end in `node`, and whatever both of them pass is the last
node of one of them. Paths list their nodes with the last one first. -/
def Converges (r : Relation κ) (first second node : κ) : Prop :=
  ∃ left right, r.Path first left node ∧ r.Path second right node ∧
    1 < left.length ∧ 1 < right.length ∧
    ∀ (i j : Nat) (k : κ), left[i]? = some k → right[j]? = some k → i = 0 ∨ j = 0

theorem converges_iff {r : Relation κ} {first second node : κ} :
    Converges r first second node ↔
      ∃ left right before before', r.Path first left before ∧ r.Path second right before' ∧
        node ∈ r.image before ∧ node ∈ r.image before' ∧ ∀ k ∈ left, k ∉ right := by
  constructor
  · rintro ⟨_, _, leftPath, rightPath, leftLong, rightLong, apart⟩
    cases leftPath with
    | start => simp at leftLong
    | @step left before _ leftPath leftEdge =>
      cases rightPath with
      | start => simp at rightLong
      | @step right before' _ rightPath rightEdge =>
        refine ⟨left, right, before, before', leftPath, rightPath, leftEdge, rightEdge, ?_⟩
        intro k onLeft onRight
        obtain ⟨i, atLeft⟩ := List.mem_iff_getElem?.mp onLeft
        obtain ⟨j, atRight⟩ := List.mem_iff_getElem?.mp onRight
        rcases apart (i + 1) (j + 1) k atLeft atRight with ended | ended <;> cases ended
  · rintro ⟨left, right, before, before', leftPath, rightPath, leftEdge, rightEdge, apart⟩
    have nonempty : ∀ {start last : κ} {visited : List κ}, r.Path start visited last →
        1 < (node :: visited).length := fun path =>
      Nat.succ_lt_succ (List.length_pos_of_mem path.end_mem)
    refine ⟨node :: left, node :: right, leftPath.step leftEdge, rightPath.step rightEdge,
      nonempty leftPath, nonempty rightPath, ?_⟩
    intro i j k atLeft atRight
    cases i with
    | zero => exact .inl rfl
    | succ i =>
      cases j with
      | zero => exact .inr rfl
      | succ j =>
        rw [List.getElem?_cons_succ] at atLeft atRight
        exact absurd (List.mem_of_getElem? atRight) (apart k (List.mem_of_getElem? atLeft))

theorem Relation.Reaches.along {r : Relation κ} {start middle node : κ} {visited : List κ}
    (reached : r.Reaches start middle) (path : r.Path middle visited node) :
    r.Reaches start node := by
  obtain ⟨before, first⟩ := reached
  obtain ⟨whole, joined, _⟩ := first.append path
  exact ⟨whole, joined⟩

/-- A node other than the start that a path passes has a first arrival. -/
theorem Relation.Path.first_arrival {r : Relation κ} {start last node : κ} {visited : List κ}
    (path : r.Path start visited last) (passed : node ∈ visited) (moved : node ≠ start) :
    ∃ before earlier, r.Path start earlier before ∧ node ∈ r.image before ∧ node ∉ earlier := by
  induction path with
  | start => exact absurd (List.mem_singleton.mp passed) moved
  | @step visited before next path related inductionHypothesis =>
    by_cases again : node ∈ visited
    · exact inductionHypothesis again
    · cases (List.mem_cons.mp passed).resolve_right again
      exact ⟨before, visited, path, related, again⟩

variable {successors : Relation κ} {entry : κ}

/-- A dominator is left for the last time on a path through nodes that it dominates. -/
theorem Dominates.exists_path_below {dominator node : κ}
    (dominates : Dominates successors entry dominator node)
    (reached : successors.Reaches entry node) :
    ∃ inner, successors.Path dominator inner node ∧
      ∀ k ∈ inner, Dominates successors entry dominator k := by
  obtain ⟨visited, path⟩ := reached
  rcases path.after_last (· = dominator) with
    never | ⟨_, _, rfl, rfl | ⟨onward, related, rest, onwardPath, avoids⟩⟩
  · exact absurd rfl (never dominator (dominates visited path))
  · refine ⟨[_], .start, ?_⟩
    intro k passed
    rw [List.mem_singleton.mp passed]
    exact .refl _
  · refine ⟨_, onwardPath.cons related, ?_⟩
    intro k passed
    rcases List.mem_append.mp passed with behind | first
    · -- Behind the last visit to a node of the rest the dominator does not come again.
      rcases onwardPath.after_last (· = k) with
        never | ⟨_, _, rfl, continued⟩
      · exact absurd rfl (never k behind)
      · rcases continued with rfl | ⟨next, step, tail, tailPath, within⟩
        · exact dominates
        · have avoided : _ ∉ tail := fun again => (avoids _ (within _ again).1).2 rfl
          exact dominates.of_last avoided (.inr ⟨next, step, tailPath⟩)
    · rw [List.mem_singleton.mp first]
      exact .refl _

/-- What a node does not strictly dominate is reached from outside its dominance. -/
theorem exists_path_outside {dominator node : κ} (reached : successors.Reaches entry node)
    (inner : node ≠ entry) (ends : ¬ StrictlyDominates successors entry dominator node) :
    ∃ before outer, successors.Path entry outer before ∧ node ∈ successors.image before ∧
      ∀ k ∈ outer, ¬ Dominates successors entry dominator k := by
  have avoiding : ∃ before outer, successors.Path entry outer before ∧
      node ∈ successors.image before ∧ dominator ∉ outer := by
    by_cases same : dominator = node
    · subst same
      obtain ⟨visited, path⟩ := reached
      exact path.first_arrival path.end_mem inner
    · have free : ¬ ∀ visited, successors.Path entry visited node → dominator ∈ visited :=
        fun dominates => ends ⟨dominates, same⟩
      simp only [Classical.not_forall] at free
      obtain ⟨_, path, avoids⟩ := free
      cases path with
      | start => exact absurd rfl inner
      | @step outer before _ path related =>
        exact ⟨before, outer, path, related, fun passed => avoids (List.mem_cons_of_mem _ passed)⟩
  obtain ⟨before, outer, path, related, avoids⟩ := avoiding
  refine ⟨before, outer, path, related, ?_⟩
  intro k passed dominates
  obtain ⟨earlier, cut, tail⟩ := path.cut passed
  exact avoids (tail.subset (dominates earlier cut))

/-- Where the dominance of a node ends, paths from it and from the entry converge. -/
theorem converges_of_frontier (unentered : ∀ k, entry ∉ successors.image k)
    {dominator before node : κ} (reached : successors.Reaches entry before)
    (above : Dominates successors entry dominator before)
    (related : node ∈ successors.image before)
    (ends : ¬ StrictlyDominates successors entry dominator node) :
    dominator ≠ entry ∧ Converges successors entry dominator node := by
  have inner : node ≠ entry := by
    rintro rfl
    exact unentered before related
  refine ⟨?_, ?_⟩
  · rintro rfl
    exact ends ⟨.entry_left node, Ne.symm inner⟩
  · obtain ⟨below, belowPath, dominated⟩ := above.exists_path_below reached
    obtain ⟨source, outer, outerPath, edge, outside⟩ :=
      exists_path_outside (reached.step related) inner ends
    exact converges_iff.mpr ⟨outer, below, source, before, outerPath, belowPath, edge, related,
      fun k onOuter onBelow => outside k onOuter (dominated k onBelow)⟩

section Makers

/-- Reached nodes that make something new. Where the dominance of one of them ends there is a
merge, which makes something new in turn. -/
structure Makers (successors : Relation κ) (entry : κ) (maker merge : κ → Prop) : Prop where
  reached : ∀ k, maker k → successors.Reaches entry k
  made : ∀ k, merge k → maker k
  spread : ∀ {d before node}, maker d → successors.Reaches entry before →
    Dominates successors entry d before → node ∈ successors.image before →
    ¬ StrictlyDominates successors entry d node → merge node

variable {maker merge : κ → Prop}

namespace Makers

variable (makers : Makers successors entry maker merge)

include makers

/-- Along an edge to a node that is no merge the makers above stay the same. -/
theorem strictlyDominates_iff {d before node : κ} (makes : maker d)
    (reached : successors.Reaches entry before) (related : node ∈ successors.image before)
    (unmerged : ¬ merge node) :
    StrictlyDominates successors entry d node ↔ Dominates successors entry d before := by
  constructor
  · exact fun strict => strict.dominates_predecessor related
  · intro above
    apply Classical.byContradiction
    intro ends
    exact unmerged (makers.spread makes reached above related ends)

/-- A path from a maker has passed the closest maker above its end. -/
theorem exists_closest {start node : κ} {visited : List κ} (makes : maker start)
    (path : successors.Path start visited node) :
    ∃ last ∈ visited, maker last ∧ Dominates successors entry last node ∧
      ∀ d, maker d → Dominates successors entry d node → Dominates successors entry d last := by
  have reachedStart := makers.reached start makes
  -- A step to a maker ends in the closest one; any other step keeps the makers above.
  induction path with
  | start => exact ⟨start, List.mem_cons_self, makes, .refl start, fun _ _ above => above⟩
  | @step visited before next path related inductionHypothesis =>
    by_cases here : maker next
    · exact ⟨next, List.mem_cons_self, here, .refl next, fun _ _ above => above⟩
    · obtain ⟨last, passed, lastMakes, above, closest⟩ := inductionHypothesis
      have same : ∀ {d}, maker d →
          (StrictlyDominates successors entry d next ↔ Dominates successors entry d before) :=
        fun {d} makes => makers.strictlyDominates_iff makes (reachedStart.along path) related
          fun merges => here (makers.made next merges)
      refine ⟨last, List.mem_cons_of_mem _ passed, lastMakes, ((same lastMakes).mpr above).1, ?_⟩
      intro d dMakes dAbove
      have apart : d ≠ next := by
        rintro rfl
        exact here dMakes
      exact closest d dMakes ((same dMakes).mp ⟨dAbove, apart⟩)

/-- Paths from makers converge at merges only. -/
theorem merge_of_converges {first second node : κ} (firstMakes : maker first)
    (secondMakes : maker second) (converges : Converges successors first second node) :
    merge node := by
  apply Classical.byContradiction
  intro unmerged
  obtain ⟨left, right, before, before', leftPath, rightPath, leftEdge, rightEdge, apart⟩ :=
    converges_iff.mp converges
  obtain ⟨one, onLeft, oneMakes, oneAbove, oneClosest⟩ := makers.exists_closest firstMakes leftPath
  obtain ⟨two, onRight, twoMakes, twoAbove, twoClosest⟩ :=
    makers.exists_closest secondMakes rightPath
  have leftReached := (makers.reached first firstMakes).along leftPath
  have rightReached := (makers.reached second secondMakes).along rightPath
  have across : ∀ {d}, maker d →
      (Dominates successors entry d before ↔ Dominates successors entry d before') :=
    fun {d} makes => (makers.strictlyDominates_iff makes leftReached leftEdge unmerged).symm.trans
      (makers.strictlyDominates_iff makes rightReached rightEdge unmerged)
  have same : one = two :=
    Dominates.antisymm (makers.reached one oneMakes)
      (twoClosest one oneMakes ((across oneMakes).mp oneAbove))
      (oneClosest two twoMakes ((across twoMakes).mpr twoAbove))
  subst same
  exact apart one onLeft onRight

end Makers

end Makers

end SsaForm
