import SsaForm.Proofs.Conversion.Basic

/-!
# Scopes along paths and edges

A block finds in scope what its dominators have made. Two facts carry the correctness of the
conversion. Every version in scope at a block is a parameter or was made in a strict
dominator. And along an edge a variable that is not merged behind it keeps its versions: a
block between the target's closest dominator and the source of the edge has the target on
its frontier, so it makes no version of the variable.
-/

namespace SsaForm.FlowGraph

/-- The versions in scope bear the names of their variables, and a parameter never goes out
of scope. -/
structure Grounded (g : FlowGraph) (scope : Versions) : Prop where
  named : ∀ var, ∀ version ∈ scope.stack var,
    (version = var ∧ var ∈ g.params.map Param.name) ∨ ∃ number, version = versionName var number
  params : ∀ param ∈ g.params.map Param.name, scope.stack param ≠ []

namespace Grounded

variable {g : FlowGraph} {scope : Versions}

theorem paramScope (g : FlowGraph) : g.Grounded g.paramScope where
  named := by
    intro var version inScope
    rw [FlowGraph.paramScope, Versions.stack_ofParams] at inScope
    split at inScope
    next isParam => exact .inl ⟨List.mem_singleton.mp inScope, isParam⟩
    next => exact absurd inScope List.not_mem_nil
  params := by
    intro param isParam
    rw [FlowGraph.paramScope, Versions.stack_ofParams, if_pos isParam]
    exact List.cons_ne_nil _ _

theorem extend (grounded : g.Grounded scope) (vars : List String) :
    g.Grounded (scope.extend vars) where
  named := by
    intro var version inScope
    rcases Versions.mem_stack_extend inScope with older | ⟨_, numbered⟩
    · exact grounded.named var version older
    · exact .inr numbered
  params := by
    intro param isParam empty
    rw [Versions.stack_extend, List.append_eq_nil_iff] at empty
    exact grounded.params param isParam empty.2

theorem congr {other : Versions} (grounded : g.Grounded scope)
    (same : ∀ var, other.stack var = scope.stack var) : g.Grounded other where
  named := by
    intro var version inScope
    rw [same] at inScope
    exact grounded.named var version inScope
  params := by
    intro param isParam
    rw [same]
    exact grounded.params param isParam

end Grounded

namespace Converts

open Renaming

variable {g : FlowGraph} {config : Config} {entry : String} {sites : List Site}
variable (converts : g.Converts config entry sites)

include converts

section Lookup

theorem eq_of_name {first second : Site} (left : first ∈ sites) (right : second ∈ sites)
    (same : first.name = second.name) : first = second :=
  List.inj_on_of_nodup_map converts.once left right same

theorem reaches {site : Site} (member : site ∈ sites) : g.successors.Reaches entry site.name :=
  (converts.live site.name).mp (List.mem_map_of_mem member)

theorem exists_site {name : String} (reached : g.successors.Reaches entry name) :
    ∃ site ∈ sites, site.name = name :=
  List.mem_map.mp ((converts.live name).mpr reached)

theorem exists_site_of_block {b : Block} (inside : b ∈ g.blocks)
    (reached : g.successors.Reaches entry b.name) : ∃ site ∈ sites, site.block = b := by
  obtain ⟨site, member, named⟩ := converts.exists_site reached
  exact ⟨site, member, converts.toWellFormed.eq_of_name (converts.sourced site member) inside named⟩

theorem finished_of_site {site : Site} (member : site ∈ sites) :
    g.finished config sites site.block =
      { site.block with instrs := g.mergesAt config sites site ++ site.instrs } := by
  have found : siteAt? sites site.block.name = some site :=
    (siteAt?_eq_some converts.once).mpr ⟨member, rfl⟩
  rw [finished, found]

theorem finished_of_unreached {b : Block} (unreached : ¬ g.successors.Reaches entry b.name) :
    g.finished config sites b = b := by
  have missing : siteAt? sites b.name = none :=
    siteAt?_eq_none.mpr fun listed => unreached ((converts.live b.name).mp listed)
  rw [finished, missing]

theorem mem_merged {site : Site} (member : site ∈ sites) {var : String} :
    var ∈ site.merged ↔ var ∈ g.surveyed.phis.image site.name := by
  rw [converts.merged site member, Std.ExtTreeSet.mem_toList]

theorem mem_made {site : Site} (member : site ∈ sites) {var : String} :
    var ∈ site.made ↔ var ∈ site.block.assigned ∨ var ∈ g.surveyed.phis.image site.name := by
  rw [Site.made, List.mem_append, converts.mem_merged member, or_comm]

end Lookup

section Nesting

theorem stack_entry {site : Site} (member : site ∈ sites) (first : site.name = entry)
    (var : String) : site.scope.stack var = g.paramScope.stack var := by
  rcases converts.nested site member with ⟨_, scope⟩ | ⟨parent, _, immediate, _⟩
  · rw [Versions.stack, scope, ← Versions.stack]
  · rw [first] at immediate
    exact absurd immediate.1.1.eq_entry immediate.1.2

theorem stack_child {parent site : Site} (above : parent ∈ sites) (member : site ∈ sites)
    (immediate : ImmediatelyDominates g.successors entry parent.name site.name) (var : String) :
    site.scope.stack var = parent.exit.stack var := by
  have reached := converts.reaches member
  rcases converts.nested site member with ⟨first, _⟩ | ⟨other, inside, closest, scope⟩
  · rw [first] at immediate
    exact absurd immediate.1.1.eq_entry immediate.1.2
  · have same : other = parent :=
      converts.eq_of_name inside above (ImmediatelyDominates.unique reached closest immediate)
    rw [Versions.stack, scope, same, ← Versions.stack]

theorem exists_parent {site : Site} (member : site ∈ sites) (inner : site.name ≠ entry) :
    ∃ parent ∈ sites, ImmediatelyDominates g.successors entry parent.name site.name := by
  rcases converts.nested site member with ⟨first, _⟩ | ⟨parent, inside, closest, _⟩
  · exact absurd first inner
  · exact ⟨parent, inside, closest⟩

/-- What holds at the entry and passes from each block to those that it immediately dominates
holds of every visit. -/
theorem site_induction {motive : Site → Prop}
    (first : ∀ site ∈ sites, site.name = entry → motive site)
    (step : ∀ parent ∈ sites, ∀ site ∈ sites,
      ImmediatelyDominates g.successors entry parent.name site.name → motive parent → motive site)
    {site : Site} (member : site ∈ sites) : motive site := by
  refine StrictlyDominates.induction (motive := fun name =>
    ∀ site ∈ sites, site.name = name → motive site) ?_ (converts.reaches member) site member rfl
  intro name _ inductionHypothesis site member named
  subst named
  by_cases atEntry : site.name = entry
  · exact first site member atEntry
  · obtain ⟨parent, above, immediate⟩ := converts.exists_parent member atEntry
    apply step parent above site member immediate
    exact inductionHypothesis parent.name immediate.1 parent above rfl

theorem grounded {site : Site} (member : site ∈ sites) : g.Grounded site.scope := by
  refine converts.site_induction (motive := fun site => g.Grounded site.scope) ?_ ?_ member
  · intro site member atEntry
    exact (Grounded.paramScope g).congr (converts.stack_entry member atEntry)
  · intro parent above site member immediate inductionHypothesis
    have atExit : g.Grounded parent.exit := by
      rw [Site.exit_eq]
      exact inductionHypothesis.extend _
    exact atExit.congr (converts.stack_child above member immediate)

/-- What is in scope at a block is a parameter or was made in a strict dominator. -/
theorem made_above {site : Site} (member : site ∈ sites) {var version : String}
    (inScope : version ∈ site.scope.stack var) :
    (version = var ∧ var ∈ g.params.map Param.name) ∨
      ∃ maker ∈ sites, StrictlyDominates g.successors entry maker.name site.name ∧
        version ∈ maker.versions := by
  refine converts.site_induction (motive := fun site => version ∈ site.scope.stack var →
    (version = var ∧ var ∈ g.params.map Param.name) ∨
      ∃ maker ∈ sites, StrictlyDominates g.successors entry maker.name site.name ∧
        version ∈ maker.versions) ?_ ?_ member inScope
  · intro site member atEntry inScope
    rw [converts.stack_entry member atEntry, paramScope, Versions.stack_ofParams] at inScope
    split at inScope
    next isParam => exact .inl ⟨List.mem_singleton.mp inScope, isParam⟩
    next => exact absurd inScope List.not_mem_nil
  · intro parent above site member immediate inductionHypothesis inScope
    rw [converts.stack_child above member immediate, Site.exit_eq] at inScope
    rcases Versions.mem_stack_extend inScope with older | made
    · rcases inductionHypothesis older with isParam | ⟨maker, listed, strict, made⟩
      · exact .inl isParam
      · exact .inr ⟨maker, listed, strict.trans (converts.reaches member) immediate.1, made⟩
    · exact .inr ⟨parent, above, immediate.1, made.1⟩

/-- A block below the closest dominator of an edge's target, and above its source, makes no
version of a variable that the target does not merge. -/
theorem not_made_between {source target middle : Site} (starts : source ∈ sites)
    (inside : middle ∈ sites) (related : target.name ∈ g.successors.image source.name)
    {closest var : String} (immediate : ImmediatelyDominates g.successors entry closest target.name)
    (below : StrictlyDominates g.successors entry closest middle.name)
    (above : Dominates g.successors entry middle.name source.name)
    (unmerged : var ∉ g.surveyed.phis.image target.name) : var ∉ middle.made := by
  intro makes
  apply unmerged
  apply converts.toRooted.merged_of_frontier (converts.sourced middle inside)
    ((converts.mem_made inside).mp makes)
  refine converts.toRooted.mem_frontiers.mpr ⟨converts.reaches inside,
    ⟨source.name, converts.reaches starts, above, related⟩, ?_⟩
  intro strict
  exact below.2 (Dominates.antisymm (below.1.reaches (converts.reaches inside)) below.1
    (immediate.2 _ strict))

/-- Along an edge a variable that is not merged behind it keeps its versions. -/
theorem stack_edge {source target : Site} (starts : source ∈ sites) (ends : target ∈ sites)
    (related : target.name ∈ g.successors.image source.name) {var : String}
    (unmerged : var ∉ g.surveyed.phis.image target.name) :
    target.scope.stack var = source.exit.stack var := by
  have inner : target.name ≠ entry := by
    intro atEntry
    rw [atEntry] at related
    exact converts.toRooted.entry_not_target related
  obtain ⟨closest, known, immediate⟩ := converts.exists_parent ends inner
  rw [converts.stack_child known ends immediate]
  -- From the closest dominator down to the source nothing makes a version of the variable.
  refine converts.site_induction (motive := fun site =>
    Dominates g.successors entry closest.name site.name →
    Dominates g.successors entry site.name source.name →
    closest.exit.stack var = site.exit.stack var) ?_ ?_ starts
    (immediate.1.dominates_predecessor related) (.refl _)
  · intro site member atEntry below _
    rw [atEntry] at below
    rw [converts.eq_of_name known member (below.eq_entry.trans atEntry.symm)]
  · intro parent listed site member upper inductionHypothesis below above
    by_cases top : closest.name = site.name
    · rw [converts.eq_of_name known member top]
    · have untouched := converts.not_made_between starts member related immediate ⟨below, top⟩ above
        unmerged
      rw [Site.exit_eq site, Versions.stack_extend_of_not_mem untouched,
        converts.stack_child listed member upper]
      exact inductionHypothesis (upper.2 _ ⟨below, top⟩) (upper.1.1.trans above)

end Nesting

end Converts

end SsaForm.FlowGraph
