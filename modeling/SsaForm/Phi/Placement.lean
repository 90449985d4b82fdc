import SsaForm.Event
import SsaForm.Relation.Basic

/-!
# Phi placement

A variable has to be merged on the frontier of every block that assigns it. A merge is an
assignment too, so its own frontier counts as well: a variable is merged in the blocks
that one or more steps along frontiers lead to.
-/

namespace SsaForm.Phi

/-- What is found on a frontier for the first time is no longer left to be found. -/
theorem size_unplaced (frontiers : Relation String) (placed : KeySet String) (block : String) :
    (frontiers.range \ (placed ∪ (frontiers.image block \ placed))).size +
      (frontiers.image block \ placed).size = (frontiers.range \ placed).size := by
  have found : (frontiers.range \ placed) ∩ frontiers.image block =
      frontiers.image block \ placed := by
    apply Std.ExtTreeSet.ext_mem
    intro k
    have ranges : k ∈ frontiers.image block → k ∈ frontiers.range := fun related =>
      Relation.mem_range.mpr ⟨block, related⟩
    grind [Std.ExtTreeSet.mem_inter_iff, Std.ExtTreeSet.mem_diff_iff]
  have remains : (frontiers.range \ placed) \ frontiers.image block =
      frontiers.range \ (placed ∪ (frontiers.image block \ placed)) := by
    apply Std.ExtTreeSet.ext_mem
    intro k
    grind [Std.ExtTreeSet.mem_union_iff, Std.ExtTreeSet.mem_diff_iff]
  rw [← remains, ← found]
  exact Std.ExtTreeSet.size_diff_add_size_inter_eq_size_left

/-- Looks at the frontiers of the waiting blocks, one after the other. A block that is found
there for the first time is placed, and it waits in front of the others, the greatest first. -/
def spread (frontiers : Relation String) (placed : KeySet String) :
    List String → KeySet String
  | [] => placed
  | block :: waiting =>
    let found := frontiers.image block \ placed
    spread frontiers (placed ∪ found) (found.toList.reverse ++ waiting)
termination_by waiting => (frontiers.range \ placed).size + waiting.length
decreasing_by
  have smaller := size_unplaced frontiers placed block
  simp only [List.length_append, List.length_reverse, List.length_cons,
    Std.ExtTreeSet.length_toList]
  omega

/-- The blocks that one or more steps along frontiers lead to from some site. The sites wait
at the start, and none of them is placed yet. -/
def iteratedFrontier (frontiers : Relation String) (sites : KeySet String) : KeySet String :=
  spread frontiers ∅ sites.toList.reverse

def placements (definitions frontiers : Relation String) : Relation String :=
  definitions.domain.tabulate fun var => iteratedFrontier frontiers (definitions.image var)

/-- The variables that each block merges. Every block with a frontier is listed, and every
block that merges something. -/
def place (definitions frontiers : Relation String) : Relation String :=
  let placed := placements definitions frontiers
  (frontiers.domain ∪ placed.range).tabulate placed.converse.image

def placementEvents (definitions frontiers : Relation String) : List Event :=
  (placements definitions frontiers).toList.filterMap fun (var, blocks) =>
    if blocks.isEmpty then none else some (.phisPlaced var blocks.size)

end SsaForm.Phi
