import SsaForm.Relation.Basic

/-!
# Dominator trees

The parent of a node is its closest strict dominator. Strict dominance holds through an
intermediate node exactly where it is two steps of itself, so leaving those pairs out
leaves the pairs of parent and child.
-/

namespace SsaForm

variable {κ : Type} [Ord κ] [Std.TransOrd κ]

def dominatorTree (dominators : Relation κ) : Relation κ :=
  let below := dominators.irreflexive.converse
  below.difference (below.compose below)

/-- The parent of every child of a tree. A child with several parents is assigned the
greatest of them. -/
def treeParents (tree : Relation κ) : Table κ κ :=
  .ofList (tree.toList.flatMap fun (parent, children) =>
    children.toList.map fun child => (child, parent))

end SsaForm
