import SsaForm.Proofs.Relation.Path

/-!
# Dominance

A node dominates another if no path from the entry gets to the second without passing the
first. On the nodes that the entry reaches this is a partial order in which the dominators
of one node form a chain, so that every node but the entry has a closest strict dominator.
-/

namespace SsaForm

variable {κ : Type} [Ord κ] [Std.TransOrd κ]

/-- Every path from the entry to `node` passes through `dominator`. -/
def Dominates (successors : Relation κ) (entry dominator node : κ) : Prop :=
  ∀ visited, successors.Path entry visited node → dominator ∈ visited

/-- Dominance of another node. -/
def StrictlyDominates (successors : Relation κ) (entry dominator node : κ) : Prop :=
  Dominates successors entry dominator node ∧ dominator ≠ node

/-- The closest strict dominator: every strict dominator dominates it. -/
def ImmediatelyDominates (successors : Relation κ) (entry dominator node : κ) : Prop :=
  StrictlyDominates successors entry dominator node ∧
    ∀ other, StrictlyDominates successors entry other node →
      Dominates successors entry other dominator

variable {successors : Relation κ} {entry : κ}

namespace Dominates

theorem refl (node : κ) : Dominates successors entry node node :=
  fun _ path => path.end_mem

theorem entry_left (node : κ) : Dominates successors entry entry node :=
  fun _ path => path.start_mem

theorem eq_entry {dominator : κ} (dominates : Dominates successors entry dominator entry) :
    dominator = entry :=
  List.mem_singleton.mp (dominates [entry] .start)

theorem trans {first second third : κ} (upper : Dominates successors entry first second)
    (lower : Dominates successors entry second third) :
    Dominates successors entry first third := by
  intro visited path
  obtain ⟨before, cut, suffix⟩ := path.cut (lower visited path)
  exact suffix.subset (upper before cut)

theorem reaches {dominator node : κ} (dominates : Dominates successors entry dominator node)
    (reached : successors.Reaches entry node) : successors.Reaches entry dominator := by
  obtain ⟨visited, path⟩ := reached
  obtain ⟨before, cut, _⟩ := path.cut (dominates visited path)
  exact ⟨before, cut⟩

theorem antisymm {first second : κ} (reached : successors.Reaches entry first)
    (upper : Dominates successors entry first second)
    (lower : Dominates successors entry second first) : first = second := by
  apply Classical.byContradiction
  intro distinct
  refine Relation.Reaches.induction_length (motive := fun node => node ≠ first) ?_ reached rfl
  intro node visited path inductionHypothesis same
  subst same
  -- The path has passed the second node, and before it the first one again.
  obtain ⟨toSecond, secondPath, secondShorter⟩ :=
    path.cut_lt (lower visited path) (Ne.symm distinct)
  obtain ⟨toFirst, firstPath, firstShorter⟩ :=
    secondPath.cut_lt (upper toSecond secondPath) distinct
  exact inductionHypothesis node toFirst firstPath (Nat.lt_trans firstShorter secondShorter) rfl

/-- A dominator that is not met behind `last` on the way to the node dominates `last`. -/
theorem of_last {dominator last node : κ} {rest : List κ}
    (dominates : Dominates successors entry dominator node) (avoids : dominator ∉ rest)
    (continued : last = node ∨
      ∃ onward ∈ successors.image last, successors.Path onward rest node) :
    Dominates successors entry dominator last := by
  intro visited path
  rcases continued with rfl | ⟨onward, related, onwardPath⟩
  · exact dominates visited path
  · obtain ⟨whole, joined, covered⟩ := (path.step related).append onwardPath
    rcases covered dominator (dominates whole joined) with before | behind
    · rcases List.mem_cons.mp before with rfl | earlier
      · exact absurd onwardPath.start_mem avoids
      · exact earlier
    · exact absurd behind avoids

/-- The dominators of a reached node form a chain. -/
theorem chain {first second node : κ} (reached : successors.Reaches entry node)
    (upper : Dominates successors entry first node)
    (lower : Dominates successors entry second node) :
    Dominates successors entry first second ∨ Dominates successors entry second first := by
  obtain ⟨visited, path⟩ := reached
  rcases path.after_last (fun k => k = first ∨ k = second) with
    never | ⟨last, _, either, ended | ⟨onward, related, rest, onwardPath, avoids⟩⟩
  · exact absurd (.inl rfl) (never first (upper visited path))
  · subst ended
    rcases either with rfl | rfl
    · exact .inr lower
    · exact .inl upper
  · have continued : last = node ∨
        ∃ onward ∈ successors.image last, successors.Path onward rest node :=
      .inr ⟨onward, related, onwardPath⟩
    rcases either with rfl | rfl
    · exact .inr (lower.of_last (fun behind => (avoids second behind).2 (.inr rfl)) continued)
    · exact .inl (upper.of_last (fun behind => (avoids first behind).2 (.inl rfl)) continued)

end Dominates

namespace StrictlyDominates

theorem dominates_predecessor {dominator node next : κ}
    (strict : StrictlyDominates successors entry dominator next)
    (related : next ∈ successors.image node) :
    Dominates successors entry dominator node := by
  intro visited path
  exact (List.mem_cons.mp (strict.1 _ (path.step related))).resolve_left strict.2

theorem trans {first second third : κ} (reached : successors.Reaches entry third)
    (upper : StrictlyDominates successors entry first second)
    (lower : StrictlyDominates successors entry second third) :
    StrictlyDominates successors entry first third := by
  refine ⟨upper.1.trans lower.1, ?_⟩
  intro same
  subst same
  exact upper.2 (Dominates.antisymm reached upper.1 lower.1)

/-- What passes from the strict dominators of a reached node to the node holds of all
reached nodes: on a path to a node, its strict dominators are met earlier. -/
theorem induction {motive : κ → Prop}
    (step : ∀ node, successors.Reaches entry node →
      (∀ other, StrictlyDominates successors entry other node → motive other) → motive node)
    {node : κ} (reached : successors.Reaches entry node) : motive node := by
  apply reached.induction_length
  intro node visited path inductionHypothesis
  apply step node ⟨visited, path⟩
  intro other strict
  obtain ⟨before, earlier, shorter⟩ := path.cut_lt (strict.1 visited path) strict.2
  exact inductionHypothesis other before earlier shorter

end StrictlyDominates

namespace ImmediatelyDominates

theorem ne_entry {parent node : κ} (immediate : ImmediatelyDominates successors entry parent node) :
    node ≠ entry := by
  rintro rfl
  exact immediate.1.2 immediate.1.1.eq_entry

/-- Every reached node but the entry has a closest strict dominator: the last strict
dominator on any path to it. -/
theorem exists_of_reaches {node : κ} (reached : successors.Reaches entry node)
    (inner : node ≠ entry) : ∃ parent, ImmediatelyDominates successors entry parent node := by
  obtain ⟨visited, path⟩ := reached
  have entryStrict : StrictlyDominates successors entry entry node :=
    ⟨Dominates.entry_left node, Ne.symm inner⟩
  rcases path.after_last (StrictlyDominates successors entry · node) with
    never | ⟨last, _, strict, ended | ⟨onward, related, rest, onwardPath, avoids⟩⟩
  · exact absurd entryStrict (never entry path.start_mem)
  · exact absurd ended strict.2
  · refine ⟨last, strict, ?_⟩
    intro other otherStrict
    exact otherStrict.1.of_last (fun behind => (avoids other behind).2 otherStrict)
      (.inr ⟨onward, related, onwardPath⟩)

theorem unique {first second node : κ} (reached : successors.Reaches entry node)
    (one : ImmediatelyDominates successors entry first node)
    (two : ImmediatelyDominates successors entry second node) : first = second :=
  Dominates.antisymm (one.1.1.reaches reached) (two.2 first one.1) (one.2 second two.1)

/-- Between a strict dominator and a node lies a node that it immediately dominates. -/
theorem exists_below {node target : κ} (reached : successors.Reaches entry target)
    (strict : StrictlyDominates successors entry node target) :
    ∃ child, ImmediatelyDominates successors entry node child ∧
      Dominates successors entry child target := by
  refine StrictlyDominates.induction (motive := fun target =>
    StrictlyDominates successors entry node target → ∃ child,
      ImmediatelyDominates successors entry node child ∧
        Dominates successors entry child target) ?_ reached strict
  intro target reached inductionHypothesis strict
  have inner : target ≠ entry := by
    intro atEntry
    subst atEntry
    exact strict.2 strict.1.eq_entry
  obtain ⟨parent, immediate⟩ := exists_of_reaches reached inner
  by_cases same : node = parent
  · subst same
    exact ⟨target, immediate, .refl target⟩
  · obtain ⟨child, below, dominates⟩ :=
      inductionHypothesis parent immediate.1 ⟨immediate.2 node strict, same⟩
    exact ⟨child, below, dominates.trans immediate.1.1⟩

/-- What two siblings dominate is apart. -/
theorem siblings_eq {parent first second node : κ} (reached : successors.Reaches entry node)
    (one : ImmediatelyDominates successors entry parent first)
    (two : ImmediatelyDominates successors entry parent second)
    (upper : Dominates successors entry first node)
    (lower : Dominates successors entry second node) : first = second := by
  have apart : ∀ {a b : κ}, ImmediatelyDominates successors entry parent a →
      ImmediatelyDominates successors entry parent b → successors.Reaches entry a →
      Dominates successors entry a b → a = b := by
    intro a b left right reachedA dominates
    apply Classical.byContradiction
    intro distinct
    exact left.1.2 (Dominates.antisymm (left.1.1.reaches reachedA) left.1.1
      (right.2 a ⟨dominates, distinct⟩))
  rcases Dominates.chain reached upper lower with above | below
  · exact apart one two (upper.reaches reached) above
  · exact (apart two one (lower.reaches reached) below).symm

/-- Strict dominators with nothing between them and the node are the closest ones. -/
theorem iff_no_middle {parent node : κ} (reached : successors.Reaches entry node) :
    ImmediatelyDominates successors entry parent node ↔
      StrictlyDominates successors entry parent node ∧
        ¬ ∃ middle, StrictlyDominates successors entry parent middle ∧
          StrictlyDominates successors entry middle node := by
  constructor
  · intro immediate
    obtain ⟨strict, closest⟩ := immediate
    refine ⟨strict, ?_⟩
    intro between
    obtain ⟨middle, upper, lower⟩ := between
    exact upper.2 (Dominates.antisymm (strict.1.reaches reached) upper.1 (closest middle lower))
  · intro closest
    obtain ⟨strict, direct⟩ := closest
    refine ⟨strict, ?_⟩
    intro other otherStrict
    rcases Dominates.chain reached strict.1 otherStrict.1 with below | above
    · by_cases same : parent = other
      · subst same
        exact .refl parent
      · exact absurd ⟨other, ⟨below, same⟩, otherStrict⟩ direct
    · exact above

end ImmediatelyDominates

end SsaForm
