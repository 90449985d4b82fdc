import SsaForm.Dominance.Solution

/-!
# Events

What a run reports about its progress: a level, a message and named values.
-/

namespace SsaForm

namespace Event

inductive Level where
  | debug
  | trace
deriving DecidableEq

inductive Value where
  | number (value : Nat)
  | flag (value : Bool)
  | text (value : String)
deriving DecidableEq

end Event

/-- A report on the progress of a run. -/
structure Event where
  level : Event.Level
  message : String
  fields : List (String × Event.Value)
deriving DecidableEq

namespace Event

/-- The function, with the size of its graph and what was added to it. -/
def graphBuilt (function : String) (blocks : Nat) (entryAdded : Bool) (terminatorsAdded : Nat) :
    Event :=
  ⟨.debug, "built control flow graph",
    [("function", .text function), ("blocks", .number blocks),
      ("synthesized_entry", .flag entryAdded),
      ("synthesized_terminators", .number terminatorsAdded)]⟩

def dominatorsConverged (report : Dominance.Report) : Event :=
  ⟨.trace, "dominators converged",
    [("nodes", .number report.nodes), ("reachable", .number report.reachable),
      ("iterations", .number report.rounds)]⟩

/-- In how many blocks a variable is merged. -/
def phisPlaced (var : String) (phis : Nat) : Event :=
  ⟨.trace, "placed phis", [("variable", .text var), ("phis", .number phis)]⟩

/-- How many versions a block made. -/
def blockRenamed (block : String) (versions : Nat) : Event :=
  ⟨.trace, "renamed block", [("block", .text block), ("versions", .number versions)]⟩

def functionConverted (function : String) (blocks reachable assigned phis : Nat) : Event :=
  ⟨.debug, "converted to SSA",
    [("function", .text function), ("blocks", .number blocks), ("reachable", .number reachable),
      ("variables", .number assigned), ("phis", .number phis)]⟩

def programConverted (functions : Nat) : Event :=
  ⟨.debug, "converted program to SSA", [("functions", .number functions)]⟩

def programConvertedInParallel (functions : Nat) : Event :=
  ⟨.debug, "converted program to SSA in parallel", [("functions", .number functions)]⟩

end Event

/-- A solver run reports its sweeps, if it made any. -/
def Dominance.Solution.events {κ : Type} [Ord κ] (solution : Dominance.Solution κ) : List Event :=
  solution.report.toList.map Event.dominatorsConverged

end SsaForm
