import SsaForm.Proofs.Conversion.Scope
import SsaForm.Proofs.Execution

/-!
# Agreement of environments

In a given scope an environment of the original instructions agrees with one of the renamed
instructions if every variable has the value of its newest version. Agreement lets the
renamed instructions read the same values, and executing an instruction on both sides keeps
it, as long as versions are not mistaken for other names.
-/

namespace SsaForm.FlowGraph

open Execution

/-- The name is not that of a version of an assigned variable. -/
def Unversioned (g : FlowGraph) (name : String) : Prop :=
  ∀ var, g.Assigns var → ∀ number, name ≠ versionName var number

/-- Every variable has the value of its newest version, a variable without versions has no
value, and nothing but parameters and versions has a value among the renamed. -/
structure Agrees {V : Type} (g : FlowGraph) (scope : Versions) (env renamed : Env V) : Prop where
  current : ∀ var version, scope.current? var = some version → renamed version = env var
  absent : ∀ var, scope.current? var = none → env var = none
  blank : ∀ name, name ∉ g.params.map Param.name → g.Unversioned name → renamed name = none

variable {V W : Type} {g : FlowGraph} {scope : Versions} {env renamed : Env V}

/-- Versions in scope keep their values when a version of another variable gets one. -/
theorem Grounded.version_ne (grounded : g.Grounded scope)
    (clear : ∀ param ∈ g.params.map Param.name, g.Unversioned param) {var other version : String}
    {number : Nat} (assigned : g.Assigns var) (different : var ≠ other)
    (inScope : version ∈ scope.stack other) : version ≠ versionName var number := by
  rcases grounded.named other version inScope with ⟨rfl, isParam⟩ | ⟨own, rfl⟩
  · exact clear version isParam var assigned number
  · intro equal
    exact different (versionName_injective equal).1.symm

namespace Agrees

/-- A renamed argument stands for the same value. -/
theorem resolve (agrees : g.Agrees scope env renamed) (grounded : g.Grounded scope)
    {name : String} (unversioned : g.Unversioned name) :
    renamed (scope.resolve name) = env name := by
  rw [Versions.resolve]
  cases found : scope.current? name with
  | some version => exact agrees.current name version found
  | none =>
    have outside : name ∉ g.params.map Param.name := by
      intro isParam
      exact grounded.params name isParam (List.head?_eq_none_iff.mp found)
    rw [Option.getD_none, agrees.absent name found, agrees.blank name outside unversioned]

theorem assign (agrees : g.Agrees scope env renamed) (grounded : g.Grounded scope)
    (clear : ∀ param ∈ g.params.map Param.name, g.Unversioned param) {var : String}
    (assigned : g.Assigns var) (result : Option V) :
    g.Agrees (scope.push var) (env.assign (some var) result)
      (renamed.assign (some (scope.next var)) result) where
  current := by
    intro other version found
    rw [Versions.current?, Versions.stack_push] at found
    by_cases same : var = other
    · subst same
      rw [if_pos rfl, List.head?_cons, Option.some.injEq] at found
      subst found
      simp [Env.assign]
    · rw [if_neg same] at found
      have inScope : version ∈ scope.stack other := List.mem_of_head? found
      have apart : scope.next var ≠ version :=
        (grounded.version_ne clear assigned same inScope).symm
      simp only [Env.assign, Option.some.injEq, same, apart, if_false]
      exact agrees.current other version found
  absent := by
    intro other missing
    rw [Versions.current?, Versions.stack_push] at missing
    by_cases same : var = other
    · rw [if_pos same] at missing
      cases missing
    · rw [if_neg same] at missing
      simp only [Env.assign, Option.some.injEq, same, if_false]
      exact agrees.absent other missing
  blank := by
    intro name outside unversioned
    have apart : scope.next var ≠ name :=
      (unversioned var assigned (scope.counter var)).symm
    simp only [Env.assign, Option.some.injEq, apart, if_false]
    exact agrees.blank name outside unversioned

/-- Agreement behind an instruction, whether or not it has a destination. -/
theorem renameInstr (agrees : g.Agrees scope env renamed) (grounded : g.Grounded scope)
    (clear : ∀ param ∈ g.params.map Param.name, g.Unversioned param) {i : Instr}
    (assigned : ∀ var, i.dest = some var → g.Assigns var) (result : Option V) :
    g.Agrees (scope.extend i.dest.toList) (env.assign i.dest result)
      (renamed.assign (scope.renameInstr i).1.dest result) := by
  rw [Versions.renameInstr_eq]
  cases found : i.dest with
  | none => exact agrees
  | some var => exact agrees.assign grounded clear (assigned var found) result

end Agrees

theorem callOf_renameInstr (agrees : g.Agrees scope env renamed) (grounded : g.Grounded scope)
    {i : Instr} (unversioned : ∀ arg ∈ i.args, g.Unversioned arg) (world : W) :
    callOf (scope.renameInstr i).1 renamed world = callOf i env world := by
  have values : (i.args.map scope.resolve).map renamed = i.args.map env := by
    rw [List.map_map]
    apply List.map_congr_left
    intro arg member
    exact agrees.resolve grounded (unversioned arg member)
  rw [Versions.renameInstr_eq, callOf, callOf, values]

theorem exit?_renameInstr (scope : Versions) (i : Instr) (choice : Nat) :
    exit? (scope.renameInstr i).1 choice = exit? i choice := by
  rw [Versions.renameInstr_eq]
  rfl

/-- Renamed instructions make the same calls, leave in the same way and end in agreement. -/
theorem execute_renameInstrs (meaning : Interpretation V W)
    (clear : ∀ param ∈ g.params.map Param.name, g.Unversioned param) {instrs : List Instr}
    (terminal : Terminal instrs)
    (unversioned : ∀ i ∈ instrs, ∀ arg ∈ i.args, g.Unversioned arg)
    (assigned : ∀ i ∈ instrs, ∀ var, i.dest = some var → g.Assigns var)
    (grounded : g.Grounded scope) (agrees : g.Agrees scope env renamed) (world : W) :
    let original := execute meaning env world instrs
    let converted := execute meaning renamed world (scope.renameInstrs instrs).1
    converted.calls = original.calls ∧ converted.exit = original.exit ∧
      converted.world = original.world ∧
      g.Agrees (scope.extend (instrs.filterMap Instr.dest)) original.env converted.env := by
  induction instrs generalizing scope env renamed world with
  | nil => exact ⟨rfl, rfl, rfl, agrees⟩
  | cons i rest inductionHypothesis =>
    rw [List.forall_mem_cons] at unversioned assigned
    have sameCall := callOf_renameInstr agrees grounded unversioned.1 world
    have after := agrees.renameInstr grounded clear assigned.1 (meaning (callOf i env world)).result
    rw [Versions.filterMap_dest_cons, Versions.extend_append, Versions.renameInstrs_cons]
    simp only [execute, sameCall, exit?_renameInstr]
    cases ends : exit? i (meaning (callOf i env world)).choice with
    | some exit =>
      cases eq_nil_of_exit? terminal ends
      exact ⟨rfl, rfl, rfl, after⟩
    | none =>
      have groundedAfter := grounded.extend i.dest.toList
      obtain ⟨calls, exits, worlds, final⟩ := inductionHypothesis (terminal_of_cons terminal)
        unversioned.2 assigned.2 groundedAfter after (meaning (callOf i env world)).world
      rw [Versions.renameInstr_scope]
      refine ⟨?_, exits, worlds, final⟩
      simp only [calls]

end SsaForm.FlowGraph
