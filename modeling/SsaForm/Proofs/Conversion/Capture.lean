import SsaForm.Proofs.Conversion.Definitions

/-!
# Captured names

Versions are numbered without regard to the names that a function already uses. The versions
of a variable that a conversion assigns are the first ones, as many as there are merges and
assignments of the variable in live blocks. So a name that stays in use is captured exactly
if it reads as one of these.
-/

namespace SsaForm

theorem Function.toSsa_eq_ok {f result : Function} {config : Config}
    (succeeded : f.toSsa config = .ok result) :
    ∃ g converted, FlowGraph.ofFunction f config.checkLabels = .ok g ∧
      g.toSsa config = .ok converted ∧ result = converted.toFunction := by
  rw [toSsa] at succeeded
  cases built : FlowGraph.ofFunction f config.checkLabels with
  | error fault =>
    rw [built] at succeeded
    cases succeeded
  | ok g =>
    rw [built] at succeeded
    cases converted : g.toSsa config with
    | error fault => simp [bind, Except.bind, converted] at succeeded
    | ok graph =>
      simp only [bind, Except.bind, converted, pure, Except.pure, Except.ok.injEq] at succeeded
      exact ⟨g, graph, rfl, converted, succeeded.symm⟩

namespace FlowGraph

open Renaming

/-- The variables that a block has new versions of: those it merges and those it assigns. -/
def versioned (g : FlowGraph) (b : Block) : List String :=
  (g.surveyed.phis.image b.name).toList ++ b.assigned

/-- How many versions of a variable a conversion makes: one for each live block that merges
the variable and one for each assignment in a live block. -/
def versionCount (g : FlowGraph) (var : String) : Nat :=
  ((g.blocks.filter fun b => b.name ∈ g.surveyed.live).flatMap g.versioned).count var

/-- Some argument in a live block has a name that the conversion leaves in its place. -/
def Keeps (g converted : FlowGraph) (name : String) : Prop :=
  ∃ b ∈ g.blocks, g.Live b.name ∧ ∃ merges renamed,
    ⟨b.name, merges ++ renamed⟩ ∈ converted.blocks ∧ renamed.length = b.instrs.length ∧
      ∃ (position place : Nat) (original i : Instr), b.instrs[position]? = some original ∧
        renamed[position]? = some i ∧ original.args[place]? = some name ∧
        i.args[place]? = some name

/-- A name that means something else than a new version: a parameter, an argument that is
kept, or the placeholder. -/
def Reserved (g converted : FlowGraph) (config : Config) (name : String) : Prop :=
  name ∈ g.params.map Param.name ∨ g.Keeps converted name ∨ name = config.placeholder

namespace Converts

variable {g : FlowGraph} {config : Config} {entry : String} {sites : List Site}
variable (converts : g.Converts config entry sites)

include converts

/-- The visited blocks are the live ones, in another order. -/
theorem visited_perm :
    (sites.map Site.block).Perm (g.blocks.filter fun b => b.name ∈ g.surveyed.live) := by
  have visitedOnce : (sites.map Site.block).Nodup := by
    apply List.Nodup.of_map Block.name
    rw [List.map_map]
    exact converts.once
  have listedOnce : g.blocks.Nodup := List.Nodup.of_map Block.name converts.distinct
  rw [List.perm_ext_iff_of_nodup visitedOnce (listedOnce.filter _)]
  intro b
  rw [List.mem_map, List.mem_filter, decide_eq_true_eq, converts.toRooted.mem_live]
  constructor
  · intro visited
    obtain ⟨site, member, rfl⟩ := visited
    exact ⟨converts.sourced site member, converts.reaches member⟩
  · intro live
    exact converts.exists_site_of_block live.1 live.2

theorem count_made (var : String) :
    (sites.flatMap Site.made).count var = g.versionCount var := by
  have perSite : sites.flatMap Site.made = (sites.map Site.block).flatMap g.versioned := by
    rw [List.flatMap_map]
    apply List.flatMap_congr
    intro site member
    rw [Site.made, converts.merged site member, versioned, Block.assigned, Site.name]
  rw [perSite, versionCount]
  exact (converts.visited_perm.flatMap_right _).count_eq var

theorem assigns_iff {name : String} :
    Assigns { g with blocks := g.blocks.map (g.finished config sites) } name ↔
      ∃ var number, name = versionName var number ∧ number < g.versionCount var := by
  have made : name ∈ sites.flatMap Site.versions ↔
      ∃ var number, name = versionName var number ∧ number < g.versionCount var := by
    rw [converts.versions, Versions.mem_numbered]
    simp only [paramScope, Versions.counter_ofParams, converts.count_made, Nat.zero_le, true_and,
      Nat.zero_add]
  rw [← made, List.mem_flatMap]
  constructor
  · intro assigned
    obtain ⟨_, changed, live, listed⟩ := assigned
    obtain ⟨b, inside, rfl⟩ := List.mem_map.mp changed
    rw [finished_name] at live
    obtain ⟨site, member, rfl⟩ :=
      converts.exists_site_of_block inside (converts.finished_live.mp live)
    rw [converts.finished_assigned member] at listed
    exact ⟨site, member, listed⟩
  · intro versioned
    obtain ⟨site, member, listed⟩ := versioned
    rw [← converts.finished_assigned member] at listed
    refine ⟨_, List.mem_map_of_mem (converts.sourced site member), ?_, listed⟩
    rw [finished_name]
    exact converts.finished_live.mpr (converts.reaches member)

end Converts

theorem WellFormed.assigns_toSsa_iff {g converted : FlowGraph} {config : Config}
    (wellFormed : g.WellFormed) (succeeded : g.toSsa config = .ok converted) (name : String) :
    converted.Assigns name ↔
      ∃ var number, name = versionName var number ∧ number < g.versionCount var := by
  cases listed : g.blocks with
  | nil =>
    rw [toSsa_of_no_entry (entry?_eq_none.mpr listed)] at succeeded
    cases succeeded
    refine iff_of_false ?_ ?_
    · intro assigned
      obtain ⟨b, inside, _⟩ := assigned
      rw [listed] at inside
      cases inside
    · intro numbered
      obtain ⟨var, number, _, bounded⟩ := numbered
      rw [versionCount, listed] at bounded
      cases bounded
  | cons first rest =>
    have inside : first ∈ g.blocks := by rw [listed]; exact List.mem_cons_self
    obtain ⟨entry, sites, converts, rfl⟩ := wellFormed.converts_of_toSsa succeeded inside
    exact converts.assigns_iff

/-- A conversion of a function assigns exactly the first versions of each variable. So none of
its destinations is reserved for something else exactly if no reserved name reads as one of
these versions. -/
theorem capture_free_iff (f result : Function) (config : Config)
    (succeeded : f.toSsa config = .ok result) :
    ∃ g converted, ofFunction f config.checkLabels = .ok g ∧ g.toSsa config = .ok converted ∧
      result = converted.toFunction ∧
      (∀ name, converted.Assigns name ↔
        ∃ var number, name = versionName var number ∧ number < g.versionCount var) ∧
      ((∀ name, converted.Assigns name → ¬ g.Reserved converted config name) ↔
        ∀ var number, number < g.versionCount var →
          ¬ g.Reserved converted config (versionName var number)) := by
  obtain ⟨g, converted, built, graphSucceeded, laidOut⟩ := Function.toSsa_eq_ok succeeded
  have assigns := (wellFormed_ofFunction built).assigns_toSsa_iff graphSucceeded
  refine ⟨g, converted, built, graphSucceeded, laidOut, assigns, ?_⟩
  constructor
  · intro apart var number bounded
    exact apart _ ((assigns _).mpr ⟨var, number, rfl, bounded⟩)
  · intro unread name assigned
    obtain ⟨var, number, rfl, bounded⟩ := (assigns name).mp assigned
    exact unread var number bounded

/-- A variable that is assigned twice, beside a parameter that is named like a version. -/
def crowded (param : String) : Function where
  name := "main"
  params := [⟨param, .primitive "int"⟩]
  body := [
    .instr (.assign "id" "x" (.primitive "int") [param]),
    .instr (.assign "add" "x" (.primitive "int") ["x", param]),
    .instr (.ret [param])]

theorem capture_free_iff_crowded :
    ∃ result, (crowded "x.2").toSsa {} = .ok result ∧
      ∃ g converted, ofFunction (crowded "x.2") true = .ok g ∧ g.toSsa {} = .ok converted ∧
        result = converted.toFunction ∧ converted.Assigns "x.1" ∧
        ∀ name, converted.Assigns name → ¬ g.Reserved converted {} name := by
  have facts : (ofFunction (crowded "x.2") true).toOption.any (fun g =>
      g.params.map Param.name = ["x.2"] ∧ g.versionCount "x" = 2 ∧
        ∀ b ∈ g.blocks, ∀ i ∈ b.instrs, ∀ arg ∈ i.args, arg = "x.2" ∨ arg = "x") = true := by
    decide +kernel
  cases succeeded : (crowded "x.2").toSsa {} with
  | error fault =>
    have some : ((crowded "x.2").toSsa {}).toOption.isSome = true := by decide +kernel
    rw [succeeded] at some
    cases some
  | ok result =>
    obtain ⟨g, converted, built, graphSucceeded, laidOut, assigns, free⟩ :=
      capture_free_iff (crowded "x.2") result {} succeeded
    rw [built] at facts
    simp only [Except.toOption, Option.any_some, decide_eq_true_eq] at facts
    obtain ⟨params, count, arguments⟩ := facts
    refine ⟨result, rfl, g, converted, built, graphSucceeded, laidOut, ?_, free.mpr ?_⟩
    · exact (assigns "x.1").mpr ⟨"x", 1, by decide, by rw [count]; decide⟩
    · -- The parameter is the first version that is not made; all else has no dot.
      intro var number bounded reserved
      have undotted : ∀ name : String, '.' ∉ name.toList → versionName var number ≠ name := by
        intro name noDot equal
        exact noDot (equal ▸ dot_mem_versionName var number)
      have beyond : versionName var number ≠ "x.2" := by
        intro equal
        obtain ⟨rfl, rfl⟩ : var = "x" ∧ number = 2 := versionName_injective equal
        rw [count] at bounded
        exact absurd bounded (Nat.lt_irrefl 2)
      rcases reserved with isParam | kept | isPlaceholder
      · rw [params] at isParam
        exact beyond (List.mem_singleton.mp isParam)
      · obtain ⟨b, inside, _, _, _, _, _, position, place, original, _, found, _, used, _⟩ := kept
        rcases arguments b inside original (List.mem_of_getElem? found) _
          (List.mem_of_getElem? used) with equal | equal
        · exact beyond equal
        · exact undotted "x" (by decide) equal
      · exact undotted _ (by decide) isPlaceholder

/-- The second version is called like the parameter, and the argument that stands for the
parameter now stands for the version. -/
theorem crowded_captured :
    ∃ result, (crowded "x.1").toSsa {} = .ok result ∧
      ∃ g converted, ofFunction (crowded "x.1") true = .ok g ∧ g.toSsa {} = .ok converted ∧
        result = converted.toFunction ∧ converted.Assigns "x.1" ∧
        "x.1" ∈ (crowded "x.1").params.map Param.name ∧ g.Keeps converted "x.1" := by
  have facts : (ofFunction (crowded "x.1") true).toOption.any (fun g =>
      (g.toSsa {}).toOption.any fun converted =>
        g.entry? = some "bb1" ∧ g.versionCount "x" = 2 ∧
        ⟨"bb1", [.assign "id" "x" (.primitive "int") ["x.1"],
          .assign "add" "x" (.primitive "int") ["x", "x.1"], .ret ["x.1"]]⟩ ∈ g.blocks ∧
        ⟨"bb1", [.assign "id" "x.0" (.primitive "int") ["x.1"],
          .assign "add" "x.1" (.primitive "int") ["x.0", "x.1"], .ret ["x.1"]]⟩ ∈
            converted.blocks) = true := by decide +kernel
  cases succeeded : (crowded "x.1").toSsa {} with
  | error fault =>
    have some : ((crowded "x.1").toSsa {}).toOption.isSome = true := by decide +kernel
    rw [succeeded] at some
    cases some
  | ok result =>
    obtain ⟨g, converted, built, graphSucceeded, laidOut⟩ := Function.toSsa_eq_ok succeeded
    have assigns := (wellFormed_ofFunction built).assigns_toSsa_iff graphSucceeded
    rw [built] at facts
    simp only [graphSucceeded, Except.toOption, Option.any_some, decide_eq_true_eq] at facts
    obtain ⟨root, count, inside, changed⟩ := facts
    refine ⟨result, rfl, g, converted, built, graphSucceeded, laidOut, ?_, by decide, ?_⟩
    · exact (assigns "x.1").mpr ⟨"x", 1, by decide, by rw [count]; decide⟩
    · exact ⟨_, inside, ⟨"bb1", root, .refl _ _⟩, [], _, changed, rfl, 2, 0, _, _, rfl, rfl, rfl,
        rfl⟩

end FlowGraph

end SsaForm
