import SsaForm.Proofs.Execution

/-!
# Execution step by step

A body is executed line by line, a graph instruction by instruction. What the instructions do
is left to a meaning over any world. An execution is observed through the instructions it has
performed, each with the world it found.
-/

namespace SsaForm.Stepping

open Execution

/-- What instructions do to a world, and whether a branch takes the first of its labels. -/
structure Meaning (W : Type) where
  effect : Instr → W → W
  takesFirst : Instr → W → Bool

/-- Where control is. -/
inductive Control (P : Type) where
  | running (place : P)
  | halted
  | stuck

/-- How far an execution has come. Every instruction it has performed is kept with the world
it was performed in. -/
structure Progress (W P : Type) where
  performed : List (Instr × W)
  world : W
  control : Control P

section Machines

variable {W P : Type}

/-- Control behind an instruction that has `next` behind it. -/
def Control.behind (find : String → Option P) (next : P) : Option Exit → Control P
  | none => .running next
  | some .halt => .halted
  | some .stuck => .stuck
  | some (.goto label) =>
    match find label with
    | some place => .running place
    | none => .stuck

/-- Performs an instruction that has `next` behind it. Only own instructions are kept. -/
def Progress.perform (progress : Progress W P) (meaning : Meaning W) (find : String → Option P)
    (own : Bool) (i : Instr) (next : P) : Progress W P where
  performed :=
    if own then progress.performed ++ [(i, progress.world)] else progress.performed
  world := if i.isTerminator then progress.world else meaning.effect i progress.world
  control := .behind find next (exit? i (if meaning.takesFirst i progress.world then 0 else 1))

/-- What stands behind a label of a body. -/
def behindLabel (label : String) : List Item → Option (List Item)
  | [] => none
  | .label name :: rest => if name = label then some rest else behindLabel label rest
  | .instr _ :: rest => behindLabel label rest

/-- One step through a body. A label is skipped, and the end of the body is a return. -/
def bodyStep (meaning : Meaning W) (body : List Item) (progress : Progress W (List Item)) :
    Progress W (List Item) :=
  match progress.control with
  | .running [] => { progress with control := .halted }
  | .running (.label _ :: rest) => { progress with control := .running rest }
  | .running (.instr i :: rest) =>
    progress.perform meaning (behindLabel · body) true i rest
  | .halted | .stuck => progress

/-- A number of steps through a body from its first line. -/
def bodyRun (meaning : Meaning W) (body : List Item) (world : W) :
    Nat → Progress W (List Item)
  | 0 => ⟨[], world, .running body⟩
  | steps + 1 => bodyStep meaning body (bodyRun meaning body world steps)

/-- An instruction of a graph, by its block and its position there. -/
structure Place where
  block : String
  position : Nat

def instrAt? (g : FlowGraph) (place : Place) : Option Instr :=
  (g.block? place.block).bind fun b => b.instrs[place.position]?

/-- The start of the block with a name. -/
def startOf? (g : FlowGraph) (name : String) : Option Place :=
  (g.block? name).map fun _ => ⟨name, 0⟩

/-- One step through a graph in which the first instructions of every block are own ones. -/
def graphStep (meaning : Meaning W) (g : FlowGraph) (own : String → Nat)
    (progress : Progress W Place) : Progress W Place :=
  match progress.control with
  | .running place =>
    match instrAt? g place with
    | some i =>
      progress.perform meaning (startOf? g) (place.position < own place.block) i
        { place with position := place.position + 1 }
    | none => { progress with control := .stuck }
  | .halted | .stuck => progress

/-- A number of steps through a graph from its entry. Without blocks there is nothing to do. -/
def graphRun (meaning : Meaning W) (g : FlowGraph) (own : String → Nat) (world : W) :
    Nat → Progress W Place
  | 0 =>
    match g.entry? with
    | some entry => ⟨[], world, .running ⟨entry, 0⟩⟩
    | none => ⟨[], world, .halted⟩
  | steps + 1 => graphStep meaning g own (graphRun meaning g own world steps)

end Machines

/-- Whether an execution goes on. -/
inductive Status where
  | running
  | halted
  | stuck
deriving DecidableEq

def Control.status {P : Type} : Control P → Status
  | .running _ => .running
  | .halted => .halted
  | .stuck => .stuck

/-- What can be seen of an execution, wherever control is. -/
structure View (W : Type) where
  performed : List (Instr × W)
  world : W
  status : Status

def Progress.view {W P : Type} (progress : Progress W P) : View W :=
  ⟨progress.performed, progress.world, progress.control.status⟩

section Matching

variable {W P Q : Type} {related : P → Q → Prop}

/-- Both executions go on at related places, or neither does. -/
inductive Control.Corresponds (related : P → Q → Prop) : Control P → Control Q → Prop where
  | running {p : P} {q : Q} (here : related p q) : Corresponds related (.running p) (.running q)
  | halted : Corresponds related .halted .halted
  | stuck : Corresponds related .stuck .stuck

theorem Control.Corresponds.status_eq {left : Control P} {right : Control Q}
    (corresponds : left.Corresponds related right) : left.status = right.status := by
  cases corresponds <;> rfl

theorem Control.corresponds_behind {find : String → Option P} {findOther : String → Option Q}
    {next : P} {other : Q} {exit : Option Exit} (continues : exit = none → related next other)
    (targets : ∀ label, exit = some (.goto label) →
      Option.Rel related (find label) (findOther label)) :
    (Control.behind find next exit).Corresponds related (Control.behind findOther other exit) := by
  match exit with
  | none => exact .running (continues rfl)
  | some .halt => exact .halted
  | some .stuck => exact .stuck
  | some (.goto label) =>
    have found := targets label rfl
    rw [Control.behind, Control.behind]
    generalize find label = place at found ⊢
    generalize findOther label = otherPlace at found ⊢
    cases found with
    | none => exact .stuck
    | some here => exact .running here

/-- Two executions that have done the same and go on at related places. -/
structure Progress.Matches (related : P → Q → Prop) (left : Progress W P)
    (right : Progress W Q) : Prop where
  performed : left.performed = right.performed
  world : left.world = right.world
  control : left.control.Corresponds related right.control

namespace Progress.Matches

variable {left : Progress W P} {right : Progress W Q}

theorem view_eq (matched : left.Matches related right) : left.view = right.view := by
  rw [view, view, matched.performed, matched.world, matched.control.status_eq]

/-- An own instruction keeps the executions matched if what stands behind it is related and
its targets are. -/
theorem perform (matched : left.Matches related right) (meaning : Meaning W)
    {find : String → Option P} {findOther : String → Option Q} {i : Instr} {next : P} {other : Q}
    (continues : i.isTerminator = false → related next other)
    (targets : ∀ label ∈ i.targets, Option.Rel related (find label) (findOther label)) :
    (left.perform meaning find true i next).Matches related
      (right.perform meaning findOther true i other) where
  performed := by simp only [Progress.perform, matched.performed, matched.world]
  world := by simp only [Progress.perform, matched.world]
  control := by
    simp only [Progress.perform, matched.world]
    exact Control.corresponds_behind (fun ends => continues (exit?_eq_none.mp ends))
      fun label leaves => targets label (mem_targets_of_exit? leaves)

end Progress.Matches

end Matching

end SsaForm.Stepping
