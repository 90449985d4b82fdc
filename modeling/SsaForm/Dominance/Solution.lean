import SsaForm.Relation.Postorder

/-!
# Dominator sets

The dominators of a node are the node itself and what all its predecessors share. The
solver starts from "everything dominates everything" and sweeps the nodes in reverse
postorder until a sweep changes nothing. The number of sweeps is bounded in advance by
the size of the graph, and the solution records how many were made and whether the last
one left the sets unchanged.
-/

namespace SsaForm

/-- What repeating a step came to: the last value, the number of steps, and whether the
last step changed nothing. -/
structure Settled (α : Type) where
  value : α
  rounds : Nat
  stable : Bool

/-- Repeats a step until it changes nothing, at most `limit` times. -/
def settle {α : Type} [DecidableEq α] (step : α → α) : Nat → α → Settled α
  | 0, value => ⟨value, 0, false⟩
  | limit + 1, value =>
    let next := step value
    if next = value then
      ⟨value, 1, true⟩
    else
      let rest := settle step limit next
      { rest with rounds := rest.rounds + 1 }

theorem step_settle {α : Type} [DecidableEq α] {step : α → α} {limit : Nat} {value : α}
    (stable : (settle step limit value).stable = true) :
    step (settle step limit value).value = (settle step limit value).value := by
  induction limit generalizing value with
  | zero => simp [settle] at stable
  | succ limit inductionHypothesis =>
    simp only [settle] at stable ⊢
    split at stable
    next unchanged => simpa only [if_pos unchanged] using unchanged
    next changed => simpa only [if_neg changed] using inductionHypothesis stable

namespace Dominance

variable {κ : Type} [Ord κ] [Std.TransOrd κ]

/-- The set the equations ask of a node: the node itself and all that the sets of its
predecessors share. A predecessor without a set is passed over. -/
def equation (predecessors sets : Relation κ) (node : κ) : KeySet κ :=
  (KeySet.common ((predecessors.image node).toList.filterMap fun p => sets[p]?)).insert node

/-- Applies the equations to the listed nodes in turn, each seeing the earlier updates. -/
def sweep (predecessors : Relation κ) (order : List κ) (sets : Relation κ) : Relation κ :=
  order.foldl (fun sets node => sets.insert node (equation predecessors sets node)) sets

/-- The starting point: every node is dominated by all nodes, the entry by itself only. -/
def initial (nodes : List κ) (entry : κ) : Relation κ :=
  let all : KeySet κ := .ofList nodes
  (all.tabulate fun _ => all).insert entry (.ofList [entry])

/-- What a solver run reports: the length of the node list, the number of nodes that the
entry reaches, and the number of sweeps. -/
structure Report where
  nodes : Nat
  reachable : Nat
  rounds : Nat
deriving DecidableEq

/-- The dominator sets of all nodes. The report is missing if the entry was not listed,
since no sweep is made then. -/
structure Solution (κ : Type) [Ord κ] where
  sets : Relation κ
  report : Option Report
  stable : Bool

/-- More sweeps than any graph with an answer needs. -/
def sweepLimit (nodes order : List κ) : Nat :=
  order.length * (nodes.length + order.length) + 2

variable [Std.LawfulEqOrd κ] [DecidableEq κ]

/-- Solves the dominator equations for the nodes that the entry reaches. Other nodes keep
the set of all nodes; so does every node if the entry is not listed. -/
def solve (nodes : List κ) (successors predecessors : Relation κ) (entry : κ) : Solution κ :=
  if entry ∈ nodes then
    let order := successors.reversePostorder entry
    let inner := order.filter fun node => node ≠ entry
    let settled := settle (sweep predecessors inner) (sweepLimit nodes order)
      (initial nodes entry)
    ⟨settled.value, some ⟨nodes.length, order.length, settled.rounds⟩, settled.stable⟩
  else
    let all : KeySet κ := .ofList nodes
    ⟨all.tabulate fun _ => all, none, true⟩

end Dominance

def dominators {κ : Type} [Ord κ] [Std.TransOrd κ] [Std.LawfulEqOrd κ] [DecidableEq κ]
    (nodes : List κ) (successors predecessors : Relation κ) (entry : κ) : Relation κ :=
  (Dominance.solve nodes successors predecessors entry).sets

end SsaForm
