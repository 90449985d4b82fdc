import SsaForm.Proofs.Conversion.Scope

/-!
# Definitions of a converted graph

The converted blocks lie on the same paths as the original ones. A reached block assigns the
versions that its visit makes, in that order, and no version is assigned twice.
-/

namespace SsaForm

/-- Instructions with different destinations are told apart by them. -/
theorem position_eq_of_dest {instrs : List Instr} (distinct : (instrs.filterMap Instr.dest).Nodup)
    {first second : Nat} {i j : Instr} {dest : String} (left : instrs[first]? = some i)
    (right : instrs[second]? = some j) (one : i.dest = some dest) (two : j.dest = some dest) :
    first = second := by
  rw [List.Nodup, List.pairwise_filterMap, List.pairwise_iff_getElem] at distinct
  obtain ⟨firstBound, rfl⟩ := List.getElem?_eq_some_iff.mp left
  obtain ⟨secondBound, rfl⟩ := List.getElem?_eq_some_iff.mp right
  rcases Nat.lt_trichotomy first second with before | same | after
  · exact absurd rfl (distinct first second firstBound secondBound before dest one dest two)
  · exact same
  · exact absurd rfl (distinct second first secondBound firstBound after dest two dest one)

theorem exists_position_of_mem_take {instrs : List Instr} {count : Nat} {dest : String}
    (listed : dest ∈ (instrs.take count).filterMap Instr.dest) :
    ∃ position i, position < count ∧ instrs[position]? = some i ∧ i.dest = some dest := by
  obtain ⟨i, member, named⟩ := List.mem_filterMap.mp listed
  obtain ⟨position, found⟩ := List.mem_iff_getElem?.mp member
  rw [List.getElem?_take] at found
  split at found
  next early => exact ⟨position, i, early, found, named⟩
  next => cases found

namespace FlowGraph

/-- The instruction at a position of a block assigns a version. -/
def DefinedAt (g : FlowGraph) (version name : String) (position : Nat) : Prop :=
  ∃ b ∈ g.blocks, b.name = name ∧ ∃ i, b.instrs[position]? = some i ∧ i.dest = some version

/-- The instruction at a position of a live block is the only one of the live blocks that
assigns a version. -/
def DefinedOnceAt (g : FlowGraph) (version name : String) (position : Nat) : Prop :=
  g.Live name ∧ g.DefinedAt version name position ∧
    ∀ otherName otherPosition, g.Live otherName → g.DefinedAt version otherName otherPosition →
      otherName = name ∧ otherPosition = position

/-- The only definition of a version stands earlier in the block than a position, or in a
block that strictly dominates it. -/
def DefinedBefore (g : FlowGraph) (entry version name : String) (position : Nat) : Prop :=
  ∃ definer definition, g.DefinedOnceAt version definer definition ∧
    ((definer = name ∧ definition < position) ∨
      StrictlyDominates g.successors entry definer name)

/-- The only definition of a version stands in a block that dominates another. -/
def DefinedAbove (g : FlowGraph) (entry version name : String) : Prop :=
  ∃ definer definition, g.DefinedOnceAt version definer definition ∧
    Dominates g.successors entry definer name

namespace Converts

open Renaming

variable {g : FlowGraph} {config : Config} {entry : String} {sites : List Site}
variable (converts : g.Converts config entry sites)

include converts

section Edges

theorem finished_targets {b : Block} (inside : b ∈ g.blocks) :
    (g.finished config sites b).targets = b.targets := by
  by_cases reached : g.successors.Reaches entry b.name
  · obtain ⟨site, member, rfl⟩ := converts.exists_site_of_block inside reached
    obtain ⟨body, last, whole, _⟩ := converts.ended site.block inside
    have lastTargets : (site.instrs.getLast?).map Instr.targets =
        (site.block.instrs.getLast?).map Instr.targets := by
      rw [← List.getLast?_map, ← List.getLast?_map, Site.instrs, Versions.map_targets_renameInstrs]
    rw [converts.finished_of_site member, Block.targets, Block.targets, Block.last?, Block.last?,
      List.getLast?_append, ← lastTargets]
    have some : ∃ i, site.instrs.getLast? = some i := by
      rw [whole, List.getLast?_concat] at lastTargets
      cases found : site.instrs.getLast? with
      | none => simp [found] at lastTargets
      | some i => exact ⟨i, rfl⟩
    obtain ⟨i, found⟩ := some
    rw [found]
    rfl
  · rw [converts.finished_of_unreached reached]

theorem finished_successors :
    ({ g with blocks := g.blocks.map (g.finished config sites) } : FlowGraph).successors =
      g.successors := by
  rw [successors, successors, List.map_map]
  congr 1
  apply List.map_congr_left
  intro b inside
  simp only [Function.comp_apply, finished_name, Block.successors,
    converts.finished_targets inside]

theorem finished_live {name : String} :
    ({ g with blocks := g.blocks.map (g.finished config sites) } : FlowGraph).Live name ↔
      g.successors.Reaches entry name := by
  rw [← converts.toRooted.live_iff, Live, Live, converts.finished_successors, entry?, entry?,
    names_map finished_name]

end Edges

section Versions

theorem nodup_versions : (sites.flatMap Site.versions).Nodup := by
  rw [converts.versions]
  exact Versions.nodup_numbered

/-- A version is made in one block only. -/
theorem maker_unique {first second : Site} (left : first ∈ sites) (right : second ∈ sites)
    {version : String} (one : version ∈ first.versions) (two : version ∈ second.versions) :
    first = second := by
  have apart := (List.nodup_flatMap.mp converts.nodup_versions).2
  rw [List.pairwise_iff_getElem] at apart
  obtain ⟨a, firstBound, rfl⟩ := List.getElem_of_mem left
  obtain ⟨b, secondBound, rfl⟩ := List.getElem_of_mem right
  rcases Nat.lt_trichotomy a b with before | same | after
  · exact absurd two (apart a b firstBound secondBound before one)
  · subst same
    rfl
  · exact absurd one (apart b a secondBound firstBound after two)

omit converts in
theorem filterMap_dest_mergesAt (site : Site) :
    (g.mergesAt config sites site).filterMap Instr.dest = site.scope.numbered site.merged := by
  rw [← Site.map_snd_dests, mergesAt, List.filterMap_map, ← List.filterMap_eq_map]
  rfl

theorem finished_assigned {site : Site} (member : site ∈ sites) :
    (g.finished config sites site.block).assigned = site.versions := by
  rw [converts.finished_of_site member, Block.assigned, List.filterMap_append,
    filterMap_dest_mergesAt, Site.instrs, Versions.renameInstrs_dests, Site.versions, Site.made,
    Versions.numbered_append]
  rfl

/-- Every version that a visit makes has its one definition in the visited block. -/
theorem definedOnceAt {site : Site} (member : site ∈ sites) {version : String} {position : Nat}
    {i : Instr} (found : (g.finished config sites site.block).instrs[position]? = some i)
    (named : i.dest = some version) :
    DefinedOnceAt { g with blocks := g.blocks.map (g.finished config sites) } version site.name
      position := by
  have assigns : ∀ {other : Site}, other ∈ sites → ∀ {at_ : Nat} {j : Instr},
      (g.finished config sites other.block).instrs[at_]? = some j → j.dest = some version →
      version ∈ other.versions := by
    intro other listed at_ j here dest
    rw [← converts.finished_assigned listed]
    exact List.mem_filterMap.mpr ⟨j, List.mem_of_getElem? here, dest⟩
  have inside := converts.sourced site member
  refine ⟨converts.finished_live.mpr (converts.reaches member),
    ⟨_, List.mem_map_of_mem inside, finished_name site.block, i, found, named⟩, ?_⟩
  intro otherName otherPosition live defined
  obtain ⟨_, changed, rfl, j, here, dest⟩ := defined
  obtain ⟨b, original, rfl⟩ := List.mem_map.mp changed
  rw [finished_name] at live ⊢
  obtain ⟨other, listed, rfl⟩ :=
    converts.exists_site_of_block original (converts.finished_live.mp live)
  have same : other = site :=
    converts.maker_unique listed member (assigns listed here dest) (assigns member found named)
  subst same
  have distinct : ((g.finished config sites other.block).instrs.filterMap Instr.dest).Nodup := by
    have whole := converts.finished_assigned listed
    rw [Block.assigned] at whole
    rw [whole]
    exact Versions.nodup_numbered
  exact ⟨rfl, position_eq_of_dest distinct here found dest named⟩

end Versions

end Converts

end FlowGraph

end SsaForm
