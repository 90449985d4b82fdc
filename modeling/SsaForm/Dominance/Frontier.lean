import SsaForm.Relation.Basic

/-!
# Dominance frontiers

A node's frontier is where its dominance ends: the successors of what it dominates that
it does not strictly dominate itself.
-/

namespace SsaForm

variable {κ : Type} [Ord κ] [Std.TransOrd κ] [DecidableEq κ]

/-- The frontier of every node that has a dominator set. A node lies in its own frontier
if something it dominates leads back to it. -/
def frontiers (dominators successors : Relation κ) : Relation κ :=
  let dominates := dominators.converse
  dominators.domain.tabulate fun node =>
    let dominated := dominates.image node
    (dominated.flatMap successors.image).select fun next => next = node || next ∉ dominated

end SsaForm
