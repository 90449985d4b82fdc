import SsaForm.Proofs.Conversion.Definitions

/-!
# Definitions dominate uses

A version stands where a scope has it on top, and scopes hold what their dominators have
made. So a renamed argument is defined earlier in its block or in a strict dominator, and
what flows out of a block is defined in a dominator of that block.
-/

namespace SsaForm.FlowGraph

open Renaming

variable {g : FlowGraph} {config : Config} {entry : String} {sites : List Site}

namespace Converts

variable (converts : g.Converts config entry sites)

include converts

theorem exists_definition {site : Site} (member : site ∈ sites) {version : String}
    (made : version ∈ site.versions) :
    ∃ position, DefinedOnceAt { g with blocks := g.blocks.map (g.finished config sites) } version
      site.name position := by
  rw [← converts.finished_assigned member] at made
  obtain ⟨i, listed, named⟩ := List.mem_filterMap.mp made
  obtain ⟨position, found⟩ := List.mem_iff_getElem?.mp listed
  exact ⟨position, converts.definedOnceAt member found named⟩

theorem assigned_before {site : Site} (member : site ∈ sites) (position : Nat) :
    (((g.finished config sites site.block).instrs.take
      ((g.mergesAt config sites site).length + position)).filterMap Instr.dest) =
      site.scope.numbered
        (site.merged ++ (site.block.instrs.take position).filterMap Instr.dest) := by
  rw [converts.finished_of_site member]
  simp only [List.take_length_add_append, List.filterMap_append]
  rw [filterMap_dest_mergesAt, Site.instrs, Versions.take_renameInstrs, Versions.renameInstrs_dests,
    Versions.numbered_append]
  rfl

/-- A renamed argument is defined earlier in its block or in a strict dominator. -/
theorem argument_defined {site : Site} (member : site ∈ sites) {position : Nat} {original : Instr}
    (found : site.block.instrs[position]? = some original) {i : Instr}
    (renamed : site.instrs[position]? = some i) {place : Nat} {arg : String}
    (used : i.args[place]? = some arg) (rewritten : original.args[place]? ≠ some arg) :
    DefinedBefore { g with blocks := g.blocks.map (g.finished config sites) } entry arg site.name
      ((g.mergesAt config sites site).length + position) := by
  rw [DefinedBefore, converts.finished_successors]
  obtain ⟨var, changed, inScope⟩ : ∃ var, arg ≠ var ∧ arg ∈ (site.scope.extend
      (site.merged ++ (site.block.instrs.take position).filterMap Instr.dest)).stack var := by
    rw [Site.instrs, Versions.getElem?_renameInstrs, found, Option.map_some, Option.some.injEq,
      Site.inside, ← Versions.extend_append, Versions.renameInstr_eq] at renamed
    subst renamed
    rw [List.getElem?_map, Option.map_eq_some_iff] at used
    obtain ⟨var, given, rfl⟩ := used
    have changed : Versions.resolve _ var ≠ var := fun same => rewritten (by rw [same]; exact given)
    exact ⟨var, changed, Versions.resolve_mem_stack changed⟩
  -- A parameter in scope stands for itself, so it does not count as rewritten.
  rcases Versions.mem_stack_extend inScope with older | ⟨made, _⟩
  · rcases converts.made_above member older with ⟨same, _⟩ | ⟨maker, listed, strict, made⟩
    · exact absurd same changed
    · obtain ⟨definition, once⟩ := converts.exists_definition listed made
      exact ⟨maker.name, definition, once, .inr strict⟩
  · rw [← converts.assigned_before member] at made
    obtain ⟨definition, j, early, here, named⟩ := exists_position_of_mem_take made
    exact ⟨site.name, definition, converts.definedOnceAt member here named, .inl ⟨rfl, early⟩⟩

/-- What flows out of a block is the placeholder, a parameter, or defined in a dominator. -/
theorem outgoing_defined {site : Site} (member : site ∈ sites) {block var : String}
    (feeds : (block, var) ∈ fed (g.plan config) site.name) :
    (config.unassigned = .placeholder ∧ site.outgoing config var = config.placeholder) ∨
      site.outgoing config var ∈ g.params.map Param.name ∨
      DefinedAbove { g with blocks := g.blocks.map (g.finished config sites) } entry
        (site.outgoing config var) site.name := by
  rw [Site.outgoing, DefinedAbove, converts.finished_successors]
  cases found : site.exit.current? var with
  | none =>
    rcases converts.flows site member _ feeds with lenient | flows
    · exact .inl ⟨lenient, rfl⟩
    · rw [found] at flows
      cases flows
  | some version =>
    refine .inr ?_
    rw [Option.getD_some]
    have inScope : version ∈ site.exit.stack var := List.mem_of_head? found
    rw [Site.exit_eq] at inScope
    rcases Versions.mem_stack_extend inScope with older | ⟨made, _⟩
    · rcases converts.made_above member older with ⟨rfl, isParam⟩ | ⟨maker, listed, strict, made⟩
      · exact .inl isParam
      · obtain ⟨definition, once⟩ := converts.exists_definition listed made
        exact .inr ⟨maker.name, definition, once, strict.1⟩
    · obtain ⟨definition, once⟩ := converts.exists_definition member made
      exact .inr ⟨site.name, definition, once, .refl _⟩

end Converts

/-- In a converted graph definitions dominate uses. The block of a reached name consists of
the inserted merges and the renamed instructions. An argument that was rewritten has its only
definition earlier in the block or in a block that strictly dominates it. An operand of a
merge is the placeholder, a parameter, or has its only definition in a block that dominates
the predecessor it comes from. -/
theorem definition_dominates_use (f : Function) (checkLabels : Bool) (g converted : FlowGraph)
    (config : Config) (built : ofFunction f checkLabels = .ok g)
    (succeeded : g.toSsa config = .ok converted) :
    ∀ b ∈ g.blocks, converted.Live b.name →
      ∃ entry merges renamed, converted.entry? = some entry ∧
        ⟨b.name, merges ++ renamed⟩ ∈ converted.blocks ∧
        (∀ phi ∈ merges, phi.isPhi = true) ∧ renamed.length = b.instrs.length ∧
        (∀ (position : Nat) (original i : Instr), b.instrs[position]? = some original →
          renamed[position]? = some i → ∀ (place : Nat) (arg : String),
          i.args[place]? = some arg → original.args[place]? ≠ some arg →
          converted.DefinedBefore entry arg b.name (merges.length + position)) ∧
        ∀ phi ∈ merges, ∀ (place : Nat) (operand : String), phi.args[place]? = some operand →
          ∃ source, phi.labels[place]? = some source ∧
            ((config.unassigned = .placeholder ∧ operand = config.placeholder) ∨
              operand ∈ f.params.map Param.name ∨
              converted.DefinedAbove entry operand source) := by
  intro b inside live
  obtain ⟨entry, sites, converts, rfl⟩ :=
    (wellFormed_ofFunction built).converts_of_toSsa succeeded inside
  obtain ⟨site, member, rfl⟩ :=
    converts.exists_site_of_block inside (converts.finished_live.mp live)
  have params := params_ofFunction built
  refine ⟨entry, g.mergesAt config sites site, site.instrs, ?_, ?_, isPhi_mergesAt site,
    Versions.length_renameInstrs _, ?_, ?_⟩
  · rw [ entry?, names_map finished_name, ← entry?, converts.root]
  · have changed := List.mem_map_of_mem (f := g.finished config sites) inside
    rw [converts.finished_of_site member] at changed
    exact changed
  · intro position original i found renamed place arg used rewritten
    exact converts.argument_defined member found renamed used rewritten
  · intro phi listed place operand used
    obtain ⟨made, _, rfl⟩ := List.mem_map.mp listed
    rw [mergeInstr, List.getElem?_map, Option.map_eq_some_iff] at used
    obtain ⟨pair, found, rfl⟩ := used
    refine ⟨pair.1, ?_, ?_⟩
    · rw [mergeInstr, List.getElem?_map, found]
      rfl
    · obtain ⟨source, starts, feeds, rfl⟩ := mem_incoming.mp (List.mem_of_getElem? found)
      rw [← params]
      exact converts.outgoing_defined starts feeds

/-- Two branches that assign one variable each, a parameter and a new one, and a use of both
behind them. -/
def branching : Function where
  name := "main"
  params := [⟨"a", .primitive "int"⟩, ⟨"c", .primitive "bool"⟩]
  body := [
    .instr (.br "c" "left" "right"),
    .label "left",
    .instr (.assign "add" "a" (.primitive "int") ["a", "a"]),
    .instr (.jmp "join"),
    .label "right",
    .instr (.assign "id" "t" (.primitive "int") ["a"]),
    .label "join",
    .instr (.effect "print" ["a", "t"])]

/-- The merge of the parameter makes the version that is printed, out of the version from the
left and the parameter itself. -/
def branchingMerge : Instr :=
  { op := "phi", dest := some "a.0", ty := some (.primitive "int"), args := ["a.1", "a"],
    labels := ["left", "right"] }

theorem definition_dominates_use_branching :
    ∃ g converted entry merges renamed, ofFunction branching true = .ok g ∧
      g.toSsa {} = .ok converted ∧ converted.entry? = some entry ∧
      ⟨"join", merges ++ renamed⟩ ∈ converted.blocks ∧ branchingMerge ∈ merges ∧
      renamed[0]? = some (.effect "print" ["a.0", "t.0"]) ∧
      converted.DefinedBefore entry "a.0" "join" 2 ∧ converted.DefinedAbove entry "a.1" "left" := by
  have facts : (ofFunction branching true).toOption.any (fun g =>
      (g.toSsa {}).toOption.any fun converted =>
        (⟨"join", [.effect "print" ["a", "t"], .ret []]⟩ ∈ g.blocks) ∧
        (∀ b ∈ converted.blocks, b.name = "join" →
          b.instrs[0]? = some branchingMerge ∧
          b.instrs[2]? = some (.effect "print" ["a.0", "t.0"]) ∧ b.instrs.length = 4) ∧
        converted.Live "join") = true := by decide +kernel
  obtain ⟨g, built, facts⟩ := exists_ok_of_any facts
  obtain ⟨converted, succeeded, facts⟩ := exists_ok_of_any facts
  obtain ⟨inside, block, live⟩ := of_decide_eq_true facts
  obtain ⟨entry, merges, renamed, root, changed, _, length, uses, operands⟩ :=
    definition_dominates_use branching true g converted {} built succeeded _ inside live
  obtain ⟨first, third, whole⟩ := block _ changed rfl
  have two : merges.length = 2 := by
    rw [List.length_append, length] at whole
    exact Nat.add_right_cancel whole
  rw [List.getElem?_append_left (by omega)] at first
  rw [List.getElem?_append_right (Nat.le_of_eq two), two] at third
  have merge := List.mem_of_getElem? first
  refine ⟨g, converted, entry, merges, renamed, built, succeeded, root, changed, merge, third,
    ?_, ?_⟩
  · have defined := uses 0 _ _ rfl third 0 "a.0" rfl (by decide)
    rwa [two] at defined
  · obtain ⟨source, label, origin⟩ := operands branchingMerge merge 0 "a.1" rfl
    cases label
    rcases origin with ⟨_, absent⟩ | isParam | defined
    · exact absurd absent (by decide)
    · exact absurd isParam (by decide)
    · exact defined

end SsaForm.FlowGraph
