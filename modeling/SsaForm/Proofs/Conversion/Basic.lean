import SsaForm.Proofs.Conversion.Survey
import SsaForm.Proofs.Phi.Insertion
import SsaForm.Proofs.Renaming.Sites

/-!
# The visits of a conversion

A conversion visits every block that the entry reaches once, along the dominator tree. The
visits determine the converted blocks: the merges with the versions they make, and behind
them the renamed instructions.
-/

namespace SsaForm.FlowGraph

open Renaming

/-- What the renaming of a graph looks up. -/
def plan (g : FlowGraph) (config : Config) : Plan :=
  ⟨config, g.surveyed.phis, g.surveyed.successors⟩

/-- The scope in front of the entry. -/
def paramScope (g : FlowGraph) : Versions :=
  .ofParams (g.params.map Param.name)

/-- The visits of a finished conversion. -/
structure Converts (g : FlowGraph) (config : Config) (entry : String) (sites : List Site) :
    Prop extends g.Rooted entry where
  order : sites.map Site.name = (VisitTree.unfold g.surveyed.tree entry).names
  once : (sites.map Site.name).Nodup
  live : ∀ name, name ∈ sites.map Site.name ↔ g.successors.Reaches entry name
  sourced : ∀ site ∈ sites, site.block ∈ g.blocks
  merged : ∀ site ∈ sites, site.merged = (g.surveyed.phis.image site.name).toList
  nested : ∀ site ∈ sites,
    (site.name = entry ∧ site.scope.inScope = g.paramScope.inScope) ∨
      ∃ parent ∈ sites, ImmediatelyDominates g.successors entry parent.name site.name ∧
        site.scope.inScope = parent.exit.inScope
  versions : sites.flatMap Site.versions = g.paramScope.numbered (sites.flatMap Site.made)
  flows : ∀ site ∈ sites, ∀ pair ∈ fed (g.plan config) site.name,
    config.unassigned = .placeholder ∨ (site.exit.current? pair.2).isSome

/-- The merge that makes a version of a variable in a block. -/
def mergeInstr (g : FlowGraph) (config : Config) (sites : List Site) (block : String)
    (made : String × String) : Instr :=
  { op := "phi"
    dest := some made.2
    ty := g.declaredTypes[made.1]?
    args := (incoming (g.plan config) sites block made.1).map Prod.snd
    labels := (incoming (g.plan config) sites block made.1).map Prod.fst }

/-- The merges of a visited block. -/
def mergesAt (g : FlowGraph) (config : Config) (sites : List Site) (site : Site) : List Instr :=
  site.dests.map (g.mergeInstr config sites site.name)

/-- A block as the conversion leaves it. -/
def finished (g : FlowGraph) (config : Config) (sites : List Site) (b : Block) : Block :=
  match siteAt? sites b.name with
  | none => b
  | some site => { b with instrs := g.mergesAt config sites site ++ site.instrs }

section Names

variable {g : FlowGraph}

/-- Blocks are found by their positions, so a change in place is found too. -/
theorem block?_map (change : Block → Block) (name : String) :
    ({ g with blocks := g.blocks.map change } : FlowGraph).block? name =
      (g.block? name).map change := by
  rw [block?, block?, Option.map_bind]
  apply Option.bind_congr
  intro position _
  exact List.getElem?_map ..

theorem WellFormed.block?_map_of_mem (wellFormed : g.WellFormed) (change : Block → Block)
    {b : Block} (inside : b ∈ g.blocks) :
    ({ g with blocks := g.blocks.map change } : FlowGraph).block? b.name = some (change b) := by
  rw [block?_map, wellFormed.block?_eq_some.mpr ⟨inside, rfl⟩]
  rfl

theorem names_map {change : Block → Block} (kept : ∀ b, (change b).name = b.name) :
    ({ g with blocks := g.blocks.map change } : FlowGraph).names = g.names := by
  rw [names, names, List.map_map]
  apply List.map_congr_left
  intro b _
  exact kept b

theorem finished_name {config : Config} {sites : List Site} (b : Block) :
    (g.finished config sites b).name = b.name := by
  rw [finished]
  split
  next => rfl
  next => rfl

end Names

section Visits

variable {g : FlowGraph} {config : Config} {entry : String} {sites : List Site}

theorem isPhi_mergesAt (site : Site) : ∀ i ∈ g.mergesAt config sites site, i.isPhi = true := by
  intro i member
  obtain ⟨made, _, rfl⟩ := List.mem_map.mp member
  rfl

/-- The walk of a conversion, as the recursion over the dominator tree. -/
def conversionWalk (g : FlowGraph) (config : Config) (entry : String) : Except Stop State :=
  visitTree (g.plan config) ⟨g.blocks, g.paramScope, {}, []⟩ (.unfold g.surveyed.tree entry)

/-- What a conversion comes to is decided by its walk. -/
theorem Rooted.convert_cases (rooted : g.Rooted entry) :
    (∃ state, g.conversionWalk config entry = .ok state ∧ (g.convert config).fault? = none ∧
      (g.convert config).graph =
        { g with blocks := Phi.insert state.tables g.declaredTypes state.blocks }) ∨
    ∃ stop, g.conversionWalk config entry = .error stop ∧
      (g.convert config).fault? = some stop.fault ∧
      (g.convert config).graph = { g with blocks := stop.blocks } := by
  have renamed := rename_eq config g.surveyed.phis g.surveyed.successors g.surveyed.tree entry
    (g.params.map Param.name) g.blocks
  rw [show visitTree ⟨config, g.surveyed.phis, g.surveyed.successors⟩
    ⟨g.blocks, .ofParams (g.params.map Param.name), {}, []⟩ (.unfold g.surveyed.tree entry) =
      g.conversionWalk config entry from rfl, surveyed] at renamed
  cases visited : g.conversionWalk config entry with
  | ok state =>
    rw [visited] at renamed
    refine .inl ⟨state, rfl, ?_, ?_⟩ <;>
      simp only [convert, rooted.root, rooted.edges, renamed]
  | error stop =>
    rw [visited] at renamed
    refine .inr ⟨stop, rfl, ?_, ?_⟩ <;>
      simp only [convert, rooted.root, rooted.edges, renamed]

/-- The walk visits the blocks that the entry reaches, each once. -/
theorem Rooted.names_unfold (rooted : g.Rooted entry) :
    (∀ name, name ∈ (VisitTree.unfold g.surveyed.tree entry).names ↔
      g.successors.Reaches entry name) ∧
    (VisitTree.unfold g.surveyed.tree entry).names.Nodup :=
  VisitTree.names_unfold rooted.isDominance fun _ => rooted.mem_live

theorem Rooted.mem_names_of_unfold (rooted : g.Rooted entry) :
    ∀ name ∈ (VisitTree.unfold g.surveyed.tree entry).names, name ∈ g.names := by
  intro name listed
  exact rooted.mem_names_of_reaches ((rooted.names_unfold.1 name).mp listed)

theorem Rooted.nodup_start (rooted : g.Rooted entry) :
    (([] : List Site).map Site.name ++ (VisitTree.unfold g.surveyed.tree entry).names).Nodup := by
  rw [List.map_nil, List.nil_append]
  exact rooted.names_unfold.2

/-- With a placeholder at hand nothing but a dangling edge prevents a conversion. -/
theorem Rooted.convert_succeeds (rooted : g.Rooted entry)
    (lenient : config.unassigned = .placeholder) : (g.convert config).fault? = none := by
  have walks : ∃ after, g.conversionWalk config entry = .ok after ∧ _ :=
    visitTree_succeeds lenient _ rooted.mem_names_of_unfold
  obtain ⟨after, visited, _⟩ := walks
  rcases rooted.convert_cases with ⟨_, _, succeeded, _⟩ | ⟨stop, stopped, _⟩
  · exact succeeded
  · cases visited.symm.trans stopped

/-- The merges of a visited block are written in the order of their versions. -/
theorem instrs_eq_mergesAt {state : State} (once : (sites.map Site.name).Nodup)
    (reflects : Reflects (g.plan config) g.blocks sites state) {site : Site} (member : site ∈ sites)
    (listed : site.merged = (g.surveyed.phis.image site.name).toList) :
    Phi.instrs state.tables g.declaredTypes site.name = g.mergesAt config sites site := by
  have dests : state.tables.dests.getD site.name ∅ = .ofList site.dests := by
    rw [Std.ExtTreeMap.getD_eq_getD_getElem?, reflects.dests,
      (siteAt?_eq_some once).mpr ⟨member, rfl⟩]
    rfl
  rw [Phi.instrs, dests, Site.dests, listed, toList_ofList_zip, ← listed, mergesAt, Site.dests]
  apply List.map_congr_left
  intro pair _
  simp only [mergeInstr, reflects.operands]

theorem insert_eq_finished {state : State} (once : (sites.map Site.name).Nodup)
    (reflects : Reflects (g.plan config) g.blocks sites state)
    (listed : ∀ site ∈ sites, site.merged = (g.surveyed.phis.image site.name).toList) :
    Phi.insert state.tables g.declaredTypes state.blocks =
      g.blocks.map (g.finished config sites) := by
  rw [Phi.insert, reflects.blocks, List.map_map]
  apply List.map_congr_left
  intro b _
  simp only [Function.comp_apply, settled_name]
  cases found : siteAt? sites b.name with
  | none =>
    have unmerged : Phi.instrs state.tables g.declaredTypes b.name = [] := by
      rw [Phi.instrs, Std.ExtTreeMap.getD_eq_getD_getElem?, reflects.dests, found]
      rfl
    simp [settled, finished, found, unmerged]
  | some site =>
    obtain ⟨member, named⟩ := (siteAt?_eq_some once).mp found
    have inserted := instrs_eq_mergesAt once reflects member (listed site member)
    rw [named] at inserted
    simp [settled, finished, found, inserted, Site.renamed]

/-- A walk that gets to its end makes the visits of a conversion. -/
theorem Rooted.converts_of_walk (rooted : g.Rooted entry) {state : State}
    (visited : g.conversionWalk config entry = .ok state) :
    ∃ sites, g.Converts config entry sites ∧ Reflects (g.plan config) g.blocks sites state := by
  obtain ⟨isName, once⟩ := rooted.names_unfold
  obtain ⟨sites, reflects, names, visits⟩ := visitTree_visits rooted.distinct
    (.unfold g.surveyed.tree entry) (VisitTree.within_unfold g.surveyed.tree entry)
    (reflects_start (g.plan config) g.blocks g.paramScope) rooted.nodup_start visited
  rw [List.nil_append] at reflects
  rw [← names] at once
  refine ⟨sites, { rooted with
    order := names
    once
    live := ?_
    sourced := visits.sourced
    merged := visits.merged
    nested := ?_
    versions := visits.versions
    flows := reflects.flows }, reflects⟩
  · intro name
    rw [names, isName]
  · intro site member
    rcases visits.nested site member with ⟨isRoot, scope⟩ | ⟨parent, inside, related, scope⟩
    · rw [List.mem_singleton, VisitTree.root_unfold] at isRoot
      exact .inl ⟨isRoot, scope⟩
    · exact .inr ⟨parent, inside, (rooted.mem_tree.mp related).2, scope⟩

/-- A conversion that succeeds leaves the blocks as its visits determine them. -/
theorem Rooted.converts (rooted : g.Rooted entry) (succeeded : (g.convert config).fault? = none) :
    ∃ sites, g.Converts config entry sites ∧
      (g.convert config).graph = { g with blocks := g.blocks.map (g.finished config sites) } := by
  rcases rooted.convert_cases with ⟨state, visited, _, graph⟩ | ⟨stop, _, failed, _⟩
  case inr => cases succeeded.symm.trans failed
  obtain ⟨sites, converts, reflects⟩ := rooted.converts_of_walk visited
  refine ⟨sites, converts, ?_⟩
  rw [graph, insert_eq_finished converts.once reflects converts.merged]

theorem toSsa_eq_ok {converted : FlowGraph} :
    g.toSsa config = .ok converted ↔
      (g.convert config).fault? = none ∧ (g.convert config).graph = converted := by
  rw [toSsa]
  cases (g.convert config).fault? with
  | none => simp
  | some fault => simp

theorem entry?_eq_none : g.entry? = none ↔ g.blocks = [] := by
  rw [ entry?, List.head?_eq_none_iff, names, List.map_eq_nil_iff]

theorem toSsa_of_no_entry (rootless : g.entry? = none) : g.toSsa config = .ok g := by
  rw [toSsa, convert, rootless]

theorem WellFormed.rooted_of_convert (wellFormed : g.WellFormed) (root : g.entry? = some entry)
    (succeeded : (g.convert config).fault? = none) : g.Rooted entry := by
  cases dangling : g.dangling? with
  | some pair => simp [convert, root, wellFormed.indexed.edges_of_dangling dangling] at succeeded
  | none => exact { wellFormed with root, resolved := dangling }

/-- A graph with blocks that converts has an entry and no dangling edges. -/
theorem WellFormed.converts_of_toSsa (wellFormed : g.WellFormed) {converted : FlowGraph}
    (succeeded : g.toSsa config = .ok converted) {b : Block} (inside : b ∈ g.blocks) :
    ∃ entry sites, g.Converts config entry sites ∧
      converted = { g with blocks := g.blocks.map (g.finished config sites) } := by
  obtain ⟨noFault, rfl⟩ := toSsa_eq_ok.mp succeeded
  cases root : g.entry? with
  | none =>
    rw [entry?_eq_none.mp root] at inside
    exact absurd inside List.not_mem_nil
  | some entry =>
    have rooted := wellFormed.rooted_of_convert root noFault
    obtain ⟨sites, converts, graph⟩ := rooted.converts noFault
    exact ⟨entry, sites, converts, graph⟩

end Visits

end SsaForm.FlowGraph
