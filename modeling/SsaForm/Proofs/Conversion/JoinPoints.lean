import Mathlib.Data.Set.Operations
import Mathlib.Order.Bounds.Defs
import SsaForm.Proofs.Conversion.Definitions
import SsaForm.Proofs.Dominance.Convergence

/-!
# Merges stand at join points

The conversion finds the blocks that merge a variable by frontiers and never looks at a path.
They are the join points of the variable all the same: the least set of blocks that holds
every block where paths from two of its sources converge, if a merge is a source in turn.
-/

namespace SsaForm.FlowGraph

open Renaming

/-- The blocks at which a variable has a value of its own: the entry and the live blocks that
assign it. -/
def sources (g : FlowGraph) (var : String) : Set String :=
  {name | g.entry? = some name ∨ g.Live name ∧ ∃ b ∈ g.blocks, b.name = name ∧ var ∈ b.assigned}

/-- Blocks that hold every block where live paths from two different sources converge, with
the blocks themselves as sources. -/
def JoinClosed (g : FlowGraph) (var : String) (joins : Set String) : Prop :=
  ∀ first ∈ g.sources var ∪ joins, ∀ second ∈ g.sources var ∪ joins, first ≠ second →
    ∀ node, Converges g.surveyed.successors first second node → node ∈ joins

/-- The conversion has put a merge of the variable in front of the instructions of a block. -/
def Merges (g converted : FlowGraph) (var name : String) : Prop :=
  ∃ b ∈ g.blocks, b.name = name ∧ ∃ merges renamed, ⟨name, merges ++ renamed⟩ ∈ converted.blocks ∧
    renamed.length = b.instrs.length ∧
    ∃ phi ∈ merges, phi.isPhi = true ∧ ∃ number, phi.dest = some (versionName var number)

/-- The blocks that are to merge a variable. -/
def placed (g : FlowGraph) (var : String) : Set String :=
  {name | var ∈ g.surveyed.phis.image name}

variable {g : FlowGraph} {config : Config} {entry var : String} {sites : List Site}

theorem mem_placed {name : String} : name ∈ g.placed var ↔ var ∈ g.surveyed.phis.image name :=
  Iff.rfl

theorem Converts.merges_iff (converts : g.Converts config entry sites) {name : String} :
    g.Merges { g with blocks := g.blocks.map (g.finished config sites) } var name ↔
      var ∈ g.surveyed.phis.image name := by
  constructor
  · rintro ⟨b, inside, rfl, merges, renamed, changed, length, phi, listed, _, number, dest⟩
    obtain ⟨original, found, whole⟩ := List.mem_map.mp changed
    have named : original.name = b.name := by
      have kept := congrArg Block.name whole
      rwa [finished_name] at kept
    cases converts.toWellFormed.eq_of_name found inside named
    by_cases reached : g.successors.Reaches entry b.name
    · obtain ⟨site, member, rfl⟩ := converts.exists_site_of_block inside reached
      rw [converts.finished_of_site member] at whole
      have instrs : g.mergesAt config sites site ++ site.instrs = merges ++ renamed :=
        congrArg Block.instrs whole
      have sameLength : site.instrs.length = renamed.length := by
        rw [length, Site.instrs, Versions.length_renameInstrs]
      -- As many renamed instructions as before leave the merges of the visit in front.
      rw [← (List.append_inj' instrs sameLength).1] at listed
      have made : versionName var number ∈ site.scope.numbered site.merged := by
        rw [← filterMap_dest_mergesAt]
        exact List.mem_filterMap.mpr ⟨phi, listed, dest⟩
      exact (converts.mem_merged member).mp (Versions.mem_of_mem_numbered made)
    · rw [converts.finished_of_unreached reached] at whole
      have instrs : b.instrs = merges ++ renamed := congrArg Block.instrs whole
      rw [instrs, List.length_append] at length
      have none : merges = [] := List.eq_nil_of_length_eq_zero (by omega)
      rw [none] at listed
      exact absurd listed List.not_mem_nil
  · intro merges
    obtain ⟨site, member, rfl⟩ := converts.exists_site (converts.toRooted.reaches_of_merged merges).1
    have listed : 0 < site.merged.count var :=
      List.count_pos_iff.mpr ((converts.mem_merged member).mpr merges)
    have made : versionName var (site.scope.counter var) ∈ site.scope.numbered site.merged :=
      Versions.mem_numbered.mpr ⟨var, _, rfl, Nat.le_refl _, by omega⟩
    have dests : (g.mergesAt config sites site).filterMap Instr.dest = _ :=
      filterMap_dest_mergesAt site
    rw [← dests] at made
    obtain ⟨phi, inFront, dest⟩ := List.mem_filterMap.mp made
    have inside := converts.sourced site member
    have changed := List.mem_map_of_mem (f := g.finished config sites) inside
    rw [converts.finished_of_site member] at changed
    exact ⟨site.block, inside, rfl, _, _, changed, Versions.length_renameInstrs _, phi, inFront,
      isPhi_mergesAt site phi inFront, _, dest⟩

namespace Rooted

variable (rooted : g.Rooted entry)

include rooted

/-- From a reached block the live edges lead along the paths of the graph. -/
theorem converges_surveyed {first second node : String}
    (firstReached : g.successors.Reaches entry first)
    (secondReached : g.successors.Reaches entry second) :
    Converges g.surveyed.successors first second node ↔
      Converges g.successors first second node := by
  have same : ∀ {start}, g.successors.Reaches entry start → ∀ {visited last},
      (g.successors.Path start visited last ↔ g.surveyed.successors.Path start visited last) := by
    intro start reached visited last
    apply Relation.path_congr
    rintro k ⟨_, path⟩ next
    rw [rooted.mem_surveyed_successors]
    exact (and_iff_right (reached.along path)).symm
  simp only [Converges, same firstReached, same secondReached]

theorem mem_sources {name : String} :
    name ∈ g.sources var ↔
      name = entry ∨ g.successors.Reaches entry name ∧
        ∃ b ∈ g.blocks, b.name = name ∧ var ∈ b.assigned := by
  rw [sources, Set.mem_ofPred_eq, rooted.root, Option.some.injEq, eq_comm, rooted.live_iff]

theorem makers (var : String) :
    Makers g.successors entry (· ∈ g.sources var ∪ g.placed var) (· ∈ g.placed var) where
  reached := by
    rintro name (source | merges)
    · rcases rooted.mem_sources.mp source with rfl | assigns
      · exact .refl _ _
      · exact assigns.1
    · exact (rooted.reaches_of_merged (mem_placed.mp merges)).1
  made := fun _ merges => .inr merges
  spread := by
    intro d before node makes reached above related ends
    have atEnd : node ∈ g.surveyed.frontiers.image d :=
      rooted.mem_frontiers.mpr ⟨above.reaches reached, ⟨before, reached, above, related⟩, ends⟩
    rcases makes with source | merges
    · rcases rooted.mem_sources.mp source with rfl | ⟨_, b, inside, rfl, assigns⟩
      · exact absurd rfl (converges_of_frontier (fun _ => rooted.entry_not_target) reached above
          related ends).1
      · exact mem_placed.mpr (rooted.merged_of_frontier inside (.inl assigns) atEnd)
    · exact mem_placed.mpr (Phi.mem_place_of_merge (mem_placed.mp merges) atEnd)

theorem joinClosed_placed : g.JoinClosed var (g.placed var) := by
  intro first firstMakes second secondMakes _ node converges
  have makers := rooted.makers var
  have reached := makers.reached
  exact makers.merge_of_converges firstMakes secondMakes
    ((rooted.converges_surveyed (reached _ firstMakes) (reached _ secondMakes)).mp converges)

/-- Frontier steps from a source stay in every set that holds the join points. -/
theorem mem_of_frontier {joins : Set String} (closed : g.JoinClosed var joins) {d node : String}
    (source : d ∈ g.sources var ∪ joins) (ends : node ∈ g.surveyed.frontiers.image d) :
    node ∈ joins := by
  obtain ⟨reached, ⟨before, reachedBefore, above, related⟩, notStrict⟩ :=
    rooted.mem_frontiers.mp ends
  obtain ⟨inner, converges⟩ := converges_of_frontier (fun _ => rooted.entry_not_target)
    reachedBefore above related notStrict
  have fromEntry : entry ∈ g.sources var ∪ joins := .inl (rooted.mem_sources.mpr (.inl rfl))
  exact closed entry fromEntry d source (Ne.symm inner) node
    ((rooted.converges_surveyed (.refl _ _) reached).mpr converges)

theorem placed_subset {joins : Set String} (closed : g.JoinClosed var joins) :
    g.placed var ⊆ joins := by
  intro name merges
  obtain ⟨site, assigns, first, related, visited, path⟩ := Phi.mem_place.mp (mem_placed.mp merges)
  have atSite : site ∈ g.sources var :=
    rooted.mem_sources.mpr (.inr (rooted.mem_definitions.mp assigns))
  induction path with
  | start => exact rooted.mem_of_frontier closed (.inl atSite) related
  | step path onward inductionHypothesis =>
    have earlier := inductionHypothesis
      (mem_placed.mpr (Phi.mem_place.mpr ⟨site, assigns, first, related, path.reaches⟩))
    exact rooted.mem_of_frontier closed (.inr earlier) onward

end Rooted

/-- The live blocks that a conversion gives a merge of a variable are the join points of the
variable: the least set that holds every block at which two live paths converge that start
at different blocks among the entry, the live blocks that assign the variable and the set
itself. -/
theorem merges_isLeast (f : Function) (checkLabels : Bool) (g converted : FlowGraph)
    (config : Config) (built : ofFunction f checkLabels = .ok g)
    (succeeded : g.toSsa config = .ok converted) (var : String) :
    IsLeast {joins | g.JoinClosed var joins} {name | g.Live name ∧ g.Merges converted var name} := by
  cases listed : g.blocks with
  | nil =>
    have rootless : g.entry? = none := entry?_eq_none.mpr listed
    have dead := not_live_of_no_entry rootless
    refine ⟨?_, ?_⟩
    · rintro first ((root | live) | merged)
      · cases rootless.symm.trans root
      · exact absurd live.1 (dead first)
      · exact absurd merged.1 (dead first)
    · rintro joins - name merged
      exact absurd merged.1 (dead name)
  | cons first rest =>
    have inside : first ∈ g.blocks := by rw [listed]; exact List.mem_cons_self
    obtain ⟨entry, sites, converts, rfl⟩ :=
      (wellFormed_ofFunction built).converts_of_toSsa succeeded inside
    have rooted := converts.toRooted
    have merged : {name | g.Live name ∧ g.Merges
        { g with blocks := g.blocks.map (g.finished config sites) } var name} = g.placed var := by
      ext name
      rw [Set.mem_ofPred_eq, converts.merges_iff, rooted.live_iff, mem_placed]
      exact and_iff_right_of_imp fun merges => (rooted.reaches_of_merged merges).1
    rw [merged]
    exact ⟨rooted.joinClosed_placed, fun joins closed => rooted.placed_subset closed⟩

/-- A block that goes on at itself and assigns a variable that the entry assigns too. -/
def spinning : Function where
  name := "main"
  params := [⟨"c", .primitive "bool"⟩]
  body := [
    .instr (.constant "x" (.primitive "int") (.int 1)),
    .label "spin",
    .instr (.assign "add" "x" (.primitive "int") ["x", "x"]),
    .instr (.br "c" "spin" "out"),
    .label "out",
    .instr (.effect "print" ["x"])]

/-- The path from the entry and the loop converge at the block, so it merges the variable. -/
theorem merges_isLeast_spinning :
    ∃ g converted, ofFunction spinning true = .ok g ∧ g.toSsa {} = .ok converted ∧
      IsLeast {joins | g.JoinClosed "x" joins} {name | g.Live name ∧ g.Merges converted "x" name} ∧
      g.Merges converted "x" "spin" := by
  have facts : (ofFunction spinning true).toOption.any (fun g =>
      (g.toSsa {}).toOption.any fun converted =>
        g.entry? = some "bb1" ∧ "spin" ∈ g.successors.image "bb1" ∧
        "spin" ∈ g.surveyed.successors.image "bb1" ∧ "spin" ∈ g.surveyed.successors.image "spin" ∧
        ∃ b ∈ g.blocks, b.name = "spin" ∧ "x" ∈ b.assigned) = true := by decide +kernel
  obtain ⟨g, built, facts⟩ := exists_ok_of_any facts
  obtain ⟨converted, succeeded, facts⟩ := exists_ok_of_any facts
  obtain ⟨root, edge, liveEdge, loop, assigns⟩ := of_decide_eq_true facts
  have least := merges_isLeast spinning true g converted {} built succeeded "x"
  have live : g.Live "spin" := ⟨"bb1", root, (Relation.Reaches.refl _ _).step edge⟩
  have converges : Converges g.surveyed.successors "bb1" "spin" "spin" :=
    converges_iff.mpr ⟨["bb1"], ["spin"], "bb1", "spin", .start, .start, liveEdge, loop,
      by decide⟩
  have merged := least.1 "bb1" (.inl (.inl root)) "spin" (.inl (.inr ⟨live, assigns⟩))
    (by decide) "spin" converges
  exact ⟨g, converted, built, succeeded, least, merged.2⟩

end SsaForm.FlowGraph
