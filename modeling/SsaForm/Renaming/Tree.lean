import SsaForm.Relation.Basic

/-!
# Visiting order

Renaming visits a tree of blocks from the root, children in ascending order. The tree is
unfolded from a relation; a block with several parents is visited below each of them.
-/

namespace SsaForm

inductive VisitTree where
  | node (name : String) (children : List VisitTree)

namespace VisitTree

def unfoldTo (tree : Relation String) : Nat → String → VisitTree
  | 0, name => .node name []
  | depth + 1, name => .node name ((tree.image name).toList.map (unfoldTo tree depth))

/-- Unfolds a relation without cycles from a node. No path passes through more inner nodes
than the relation has keys. -/
def unfold (tree : Relation String) (root : String) : VisitTree :=
  unfoldTo tree tree.size root

mutual

/-- A measure of a tree that exceeds that of its children by two. -/
def weight : VisitTree → Nat
  | .node _ children => forestWeight children + 2

def forestWeight : List VisitTree → Nat
  | [] => 0
  | tree :: rest => weight tree + forestWeight rest

end

end VisitTree

end SsaForm
