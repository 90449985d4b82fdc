import SsaForm.Relation.Basic

/-!
# Depth-first order

The walk keeps the nodes it has not entered yet and a stack of pending visits. Entering
a node removes it from the first, so a node is listed at most once, and it is listed
after everything that was first met below it. Successors are taken in ascending order. A
node may wait in several places at a time, since it is only left out of the stack if it has
been entered before its predecessor.
-/

namespace SsaForm.Relation

variable {κ : Type} [Ord κ] [Std.TransOrd κ]

inductive Visit (κ : Type) where
  | enter (node : κ)
  | leave (node : κ)

def visits (r : Relation κ) (unseen : KeySet κ) (node : κ) : List (Visit κ) :=
  ((r.image node).toList.filter fun next => decide (next ∈ unseen)).map .enter

theorem length_visits_le [Std.LawfulEqOrd κ] (r : Relation κ) (unseen : KeySet κ) (node : κ) :
    (r.visits unseen node).length ≤ r.carrier.size := by
  rw [visits, List.length_map]
  calc ((r.image node).toList.filter fun next => decide (next ∈ unseen)).length
      ≤ (r.image node).toList.length := List.length_filter_le _ _
    _ = (r.image node).size := Std.ExtTreeSet.length_toList
    _ ≤ r.carrier.size := size_image_le_size_carrier r node

/-- Runs the pending visits and lists the nodes in the order in which they are left. A
node outside `unseen` is not entered. -/
def walk [Std.LawfulEqOrd κ] (r : Relation κ) (unseen : KeySet κ) : List (Visit κ) → List κ
  | [] => []
  | .leave node :: rest => node :: walk r unseen rest
  | .enter node :: rest =>
    if node ∈ unseen then
      walk r (unseen.erase node) (r.visits (unseen.erase node) node ++ .leave node :: rest)
    else
      walk r unseen rest
termination_by stack => unseen.size * (r.carrier.size + 2) + stack.length
decreasing_by
  · simp only [List.length_cons]; omega
  · have smaller := KeySet.size_erase_lt ‹node ∈ unseen›
    have room := Nat.mul_le_mul_right (r.carrier.size + 2) (Nat.succ_le_of_lt smaller)
    have bounded := length_visits_le r (unseen.erase node) node
    simp only [Nat.succ_mul, List.length_append, List.length_cons] at room ⊢
    omega
  · simp only [List.length_cons]; omega

variable [Std.LawfulEqOrd κ]

/-- The nodes reachable from a key, each after the successors first met below it. A start
that is not a key reaches nothing. -/
def postorder (r : Relation κ) (start : κ) : List κ :=
  if start ∈ r then walk r r.carrier [.enter start] else []

/-- The depth-first order read backwards: a node comes before what it leads to, back
edges apart. -/
def reversePostorder (r : Relation κ) (start : κ) : List κ :=
  (r.postorder start).reverse

def reachable (r : Relation κ) (start : κ) : KeySet κ :=
  .ofList (r.postorder start)

end SsaForm.Relation
