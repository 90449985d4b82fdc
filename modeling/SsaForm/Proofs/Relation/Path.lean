import SsaForm.Relation.Basic

/-!
# Paths

A path of a relation is kept with the list of the nodes it passes, the last one first, so
that what a path has passed before a node is a tail of its list. Paths are cut at a node,
put together, and cut behind the last node with a given property; the searches and the
theory of dominance rest on these three.
-/

namespace SsaForm.Relation

variable {κ : Type} [Ord κ] [Std.TransOrd κ]

/-- A path from `start`, with the nodes it passes, the last one first. -/
inductive Path (r : Relation κ) (start : κ) : List κ → κ → Prop where
  | start : Path r start [start] start
  | step {visited : List κ} {node next : κ} :
    Path r start visited node → next ∈ r.image node → Path r start (next :: visited) next

/-- Some path leads from `start` to `node`. -/
def Reaches (r : Relation κ) (start node : κ) : Prop :=
  ∃ visited, r.Path start visited node

theorem Reaches.refl (r : Relation κ) (start : κ) : r.Reaches start start :=
  ⟨[start], .start⟩

theorem Reaches.step {r : Relation κ} {start node next : κ} (reached : r.Reaches start node)
    (related : next ∈ r.image node) : r.Reaches start next := by
  obtain ⟨visited, path⟩ := reached
  exact ⟨next :: visited, path.step related⟩

namespace Path

variable {r : Relation κ} {start node next : κ} {visited : List κ}

theorem reaches (path : r.Path start visited node) : r.Reaches start node :=
  ⟨visited, path⟩

theorem end_mem (path : r.Path start visited node) : node ∈ visited := by
  cases path with
  | start => exact List.mem_cons_self
  | step _ _ => exact List.mem_cons_self

theorem start_mem (path : r.Path start visited node) : start ∈ visited := by
  induction path with
  | start => exact List.mem_cons_self
  | step _ _ inductionHypothesis => exact List.mem_cons_of_mem _ inductionHypothesis

/-- A path has already reached every node it passes. -/
theorem cut {middle : κ} (path : r.Path start visited node) (passed : middle ∈ visited) :
    ∃ before, r.Path start before middle ∧ before <:+ visited := by
  induction path with
  | start =>
    cases List.mem_singleton.mp passed
    exact ⟨[start], .start, List.suffix_refl _⟩
  | @step visited last next path related inductionHypothesis =>
    rcases List.mem_cons.mp passed with rfl | earlier
    · exact ⟨middle :: visited, path.step related, List.suffix_refl _⟩
    · obtain ⟨before, shorter, tail⟩ := inductionHypothesis earlier
      exact ⟨before, shorter, tail.trans (List.suffix_cons next visited)⟩

theorem cut_lt {middle : κ} (path : r.Path start visited node) (passed : middle ∈ visited)
    (inner : middle ≠ node) :
    ∃ before, r.Path start before middle ∧ before.length < visited.length := by
  cases path with
  | start => exact absurd (List.mem_singleton.mp passed) inner
  | @step visited last _ path related =>
    have earlier : middle ∈ visited := (List.mem_cons.mp passed).resolve_left inner
    obtain ⟨before, shorter, tail⟩ := path.cut earlier
    exact ⟨before, shorter, Nat.lt_succ_of_le tail.length_le⟩

theorem append {middle : κ} {first second : List κ} (path : r.Path start first middle)
    (next : r.Path middle second node) :
    ∃ whole, r.Path start whole node ∧ ∀ k ∈ whole, k ∈ first ∨ k ∈ second := by
  induction next with
  | start => exact ⟨first, path, fun _ passed => .inl passed⟩
  | @step second last next _ related inductionHypothesis =>
    obtain ⟨whole, joined, covered⟩ := inductionHypothesis
    refine ⟨next :: whole, joined.step related, ?_⟩
    intro k passed
    rcases List.mem_cons.mp passed with rfl | earlier
    · exact .inr List.mem_cons_self
    · exact (covered k earlier).imp_right (List.mem_cons_of_mem _)

theorem cons {second : κ} (related : second ∈ r.image start)
    (path : r.Path second visited node) : r.Path start (visited ++ [start]) node := by
  induction path with
  | start => exact Path.start.step related
  | step _ onward inductionHypothesis => exact inductionHypothesis.step onward

/-- Either no node of a path has a property, or the path goes on from the last node that
has it without meeting another one. -/
theorem after_last (property : κ → Prop) (path : r.Path start visited node) :
    (∀ k ∈ visited, ¬ property k) ∨
      ∃ last ∈ visited, property last ∧
        (last = node ∨ ∃ onward ∈ r.image last, ∃ rest, r.Path onward rest node ∧
          ∀ k ∈ rest, k ∈ visited ∧ ¬ property k) := by
  induction path with
  | start =>
    by_cases holds : property start
    · exact .inr ⟨start, List.mem_cons_self, holds, .inl rfl⟩
    · refine .inl ?_
      intro k passed
      rwa [List.mem_singleton.mp passed]
  | @step visited current next path related inductionHypothesis =>
    by_cases here : property next
    · exact .inr ⟨next, List.mem_cons_self, here, .inl rfl⟩
    rcases inductionHypothesis with never | ⟨last, passed, holds, ended | continued⟩
    · refine .inl ?_
      intro k met
      rcases List.mem_cons.mp met with rfl | earlier
      · exact here
      · exact never k earlier
    · subst ended
      refine .inr ⟨last, List.mem_cons_of_mem _ passed, holds,
        .inr ⟨next, related, [next], .start, ?_⟩⟩
      intro k met
      rw [List.mem_singleton.mp met]
      exact ⟨List.mem_cons_self, here⟩
    · obtain ⟨onward, first, rest, tail, avoids⟩ := continued
      refine .inr ⟨last, List.mem_cons_of_mem _ passed, holds,
        .inr ⟨onward, first, next :: rest, tail.step related, ?_⟩⟩
      intro k met
      rcases List.mem_cons.mp met with rfl | earlier
      · exact ⟨List.mem_cons_self, here⟩
      · exact ⟨List.mem_cons_of_mem _ (avoids k earlier).1, (avoids k earlier).2⟩

end Path

/-- Paths from a node depend only on the nodes that it reaches. -/
theorem path_congr {r s : Relation κ} {start : κ}
    (same : ∀ k, r.Reaches start k → ∀ next, next ∈ r.image k ↔ next ∈ s.image k)
    {visited : List κ} {node : κ} : r.Path start visited node ↔ s.Path start visited node := by
  constructor
  · intro path
    induction path with
    | start => exact .start
    | step path related inductionHypothesis =>
      exact inductionHypothesis.step ((same _ path.reaches _).mp related)
  · intro path
    induction path with
    | start => exact .start
    | step _ related inductionHypothesis =>
      exact inductionHypothesis.step ((same _ inductionHypothesis.reaches _).mpr related)

/-- What holds of a node as soon as it holds of all nodes with a shorter path holds of every
node that is reached. -/
theorem Reaches.induction_length {r : Relation κ} {start : κ} {motive : κ → Prop}
    (step : ∀ node visited, r.Path start visited node →
      (∀ other before, r.Path start before other → before.length < visited.length →
        motive other) → motive node)
    {node : κ} (reached : r.Reaches start node) : motive node := by
  obtain ⟨visited, path⟩ := reached
  induction length : visited.length using Nat.strongRecOn generalizing visited node with
  | ind bound inductionHypothesis =>
    apply step node visited path
    intro other before earlier shorter
    exact inductionHypothesis before.length (length ▸ shorter) before earlier rfl

theorem Reaches.mem_start {r : Relation κ} {start node : κ} (reached : r.Reaches start node)
    (moved : node ≠ start) : start ∈ r := by
  obtain ⟨visited, path⟩ := reached
  induction path with
  | start => exact absurd rfl moved
  | @step visited last next path related inductionHypothesis =>
    by_cases first : last = start
    · subst first
      exact mem_of_mem_image related
    · exact inductionHypothesis first

/-- Some path leads from `start` to `node` and stays within a set. -/
def ReachesWithin (r : Relation κ) (allowed : KeySet κ) (start node : κ) : Prop :=
  ∃ visited, r.Path start visited node ∧ ∀ k ∈ visited, k ∈ allowed

namespace ReachesWithin

variable {r : Relation κ} {allowed : KeySet κ} {start node : κ}

theorem refl (membership : start ∈ allowed) : r.ReachesWithin allowed start start := by
  refine ⟨[start], .start, ?_⟩
  intro k passed
  rwa [List.mem_singleton.mp passed]

theorem start_mem (reached : r.ReachesWithin allowed start node) : start ∈ allowed := by
  obtain ⟨visited, path, within⟩ := reached
  exact within start path.start_mem

theorem mono {larger : KeySet κ} (reached : r.ReachesWithin allowed start node)
    (subset : ∀ k, k ∈ allowed → k ∈ larger) : r.ReachesWithin larger start node := by
  obtain ⟨visited, path, within⟩ := reached
  exact ⟨visited, path, fun k passed => subset k (within k passed)⟩

theorem cons {next : κ} (membership : start ∈ allowed) (related : next ∈ r.image start)
    (reached : r.ReachesWithin allowed next node) : r.ReachesWithin allowed start node := by
  obtain ⟨visited, path, within⟩ := reached
  refine ⟨visited ++ [start], path.cons related, ?_⟩
  intro k passed
  rcases List.mem_append.mp passed with earlier | first
  · exact within k earlier
  · rwa [List.mem_singleton.mp first]

/-- A path through `removed` nodes can be entered behind the last of them. -/
theorem remove (removed : κ → Prop) {rest : KeySet κ}
    (remains : ∀ k, k ∈ allowed → ¬ removed k → k ∈ rest)
    (reached : r.ReachesWithin allowed start node) :
    r.ReachesWithin rest start node ∨
      ∃ last, last ∈ allowed ∧ removed last ∧
        (last = node ∨ ∃ onward ∈ r.image last, r.ReachesWithin rest onward node) := by
  obtain ⟨visited, path, within⟩ := reached
  rcases path.after_last removed with never | ⟨last, passed, holds, ended | continued⟩
  · exact .inl ⟨visited, path, fun k met => remains k (within k met) (never k met)⟩
  · exact .inr ⟨last, within last passed, holds, .inl ended⟩
  · obtain ⟨onward, first, tail, onwardPath, avoids⟩ := continued
    refine .inr ⟨last, within last passed, holds, .inr ⟨onward, first, tail, onwardPath, ?_⟩⟩
    intro k met
    exact remains k (within k (avoids k met).1) (avoids k met).2

end ReachesWithin

end SsaForm.Relation
