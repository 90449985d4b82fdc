import SsaForm.Proofs.Conversion.Operands
import SsaForm.Proofs.Conversion.Simulation

/-!
# Names without a reaching assignment

Renaming decides by its stacks, which hold what the dominators of a block have made. Whether
a variable has a version in scope is a matter of paths nevertheless. An assignment on a path
brings a version into scope, and an edge does not lose it: a variable that is not merged
behind the edge keeps its stack. Conversely a version in scope comes from an assignment or a
merge in a dominator, and behind a merge there is a chain of frontiers, that is a path, that
starts at an assignment.
-/

namespace SsaForm.FlowGraph

open Renaming

/-- Some path from the entry to an instruction of a block assigns the variable before it, in
a block that it has passed or further up in the block itself. -/
def AssignedBefore (g : FlowGraph) (var : String) (b : Block) (position : Nat) : Prop :=
  ∃ entry earlier, g.entry? = some entry ∧ g.successors.Path entry (b.name :: earlier) b.name ∧
    ((∃ c ∈ g.blocks, c.name ∈ earlier ∧ var ∈ c.assigned) ∨
      var ∈ (b.instrs.take position).filterMap Instr.dest)

/-- Some path from the entry through the end of a block assigns the variable. -/
def AssignedThrough (g : FlowGraph) (entry var name : String) : Prop :=
  ∃ visited, g.successors.Path entry visited name ∧
    ∃ c ∈ g.blocks, c.name ∈ visited ∧ var ∈ c.assigned

variable {g : FlowGraph} {config : Config} {entry var : String} {sites : List Site}

namespace AssignedThrough

theorem of_assigned {c : Block} (inside : c ∈ g.blocks) (assigns : var ∈ c.assigned)
    (reached : g.successors.Reaches entry c.name) : g.AssignedThrough entry var c.name := by
  obtain ⟨visited, path⟩ := reached
  exact ⟨visited, path, c, inside, path.end_mem, assigns⟩

theorem reaches {name : String} (through : g.AssignedThrough entry var name) :
    g.successors.Reaches entry name := by
  obtain ⟨_, path, _⟩ := through
  exact path.reaches

theorem step {name next : String} (through : g.AssignedThrough entry var name)
    (related : next ∈ g.successors.image name) : g.AssignedThrough entry var next := by
  obtain ⟨visited, path, c, inside, passed, assigns⟩ := through
  exact ⟨next :: visited, path.step related, c, inside, List.mem_cons_of_mem _ passed, assigns⟩

theorem along {name last : String} {visited : List String}
    (through : g.AssignedThrough entry var name) (path : g.successors.Path name visited last) :
    g.AssignedThrough entry var last := by
  induction path with
  | start => exact through
  | step _ related inductionHypothesis => exact inductionHypothesis.step related

end AssignedThrough

theorem Rooted.assignedBefore_iff (rooted : g.Rooted entry) {b : Block} {position : Nat}
    (reached : g.successors.Reaches entry b.name) :
    g.AssignedBefore var b position ↔
      (∃ p, g.AssignedThrough entry var p ∧ b.name ∈ g.successors.image p) ∨
        var ∈ (b.instrs.take position).filterMap Instr.dest := by
  constructor
  · rintro ⟨start, earlier, root, path, before | above⟩
    · cases rooted.root.symm.trans root
      cases path with
      | start => simp at before
      | @step _ p _ path related => exact .inl ⟨p, ⟨earlier, path, before⟩, related⟩
    · exact .inr above
  · rintro (⟨p, ⟨visited, path, before⟩, related⟩ | above)
    · exact ⟨entry, visited, rooted.root, path.step related, .inl before⟩
    · obtain ⟨visited, path⟩ := reached
      cases path with
      | start => exact ⟨_, [], rooted.root, .start, .inr above⟩
      | step path related => exact ⟨entry, _, rooted.root, path.step related, .inr above⟩

section Frontiers

variable (rooted : g.Rooted entry)

include rooted

/-- Where the dominance of a block ends, a path from that block arrives. -/
theorem Rooted.arrives_of_frontier {name next : String} (through : g.AssignedThrough entry var name)
    (ends : next ∈ g.surveyed.frontiers.image name) :
    ∃ p, g.AssignedThrough entry var p ∧ next ∈ g.successors.image p := by
  obtain ⟨_, ⟨p, reached, dominates, related⟩, _⟩ := rooted.mem_frontiers.mp ends
  obtain ⟨inner, path, _⟩ := dominates.exists_path_below reached
  exact ⟨p, through.along path, related⟩

/-- A merge is entered by a path that assigns the variable. -/
theorem Rooted.arrives_of_merged {name : String} (merges : var ∈ g.surveyed.phis.image name) :
    ∃ p, g.AssignedThrough entry var p ∧ name ∈ g.successors.image p := by
  obtain ⟨source, defines, first, ends, visited, path⟩ := Phi.mem_place.mp merges
  obtain ⟨reached, b, inside, rfl, assigns⟩ := rooted.mem_definitions.mp defines
  clear merges
  -- The induction is on the chain of frontiers from the block that assigns the variable.
  induction path with
  | start => exact rooted.arrives_of_frontier (.of_assigned inside assigns reached) ends
  | step _ ends inductionHypothesis =>
    obtain ⟨p, through, related⟩ := inductionHypothesis
    exact rooted.arrives_of_frontier (through.step related) ends

end Frontiers

namespace Converts

variable (converts : g.Converts config entry sites)

include converts

/-- A version in scope does not get lost along an edge. -/
theorem current?_edge {source target : Site} (starts : source ∈ sites) (ends : target ∈ sites)
    (related : target.name ∈ g.successors.image source.name)
    (flows : source.exit.current? var ≠ none) : target.inside.current? var ≠ none := by
  by_cases merges : var ∈ target.merged
  · exact Versions.current?_extend_ne_none merges
  · rwa [converts.current?_inside starts ends related merges]

theorem current?_exit_of_block {site : Site} (member : site ∈ sites) {c : Block}
    (inside : c ∈ g.blocks) (named : c.name = site.name) (assigns : var ∈ c.assigned) :
    site.exit.current? var ≠ none := by
  cases converts.toWellFormed.eq_of_name inside (converts.sourced site member) named
  exact Versions.current?_extend_ne_none assigns

theorem current?_exit_of_assigned {site : Site} (member : site ∈ sites)
    (through : g.AssignedThrough entry var site.name) : site.exit.current? var ≠ none := by
  obtain ⟨visited, path, c, inside, passed, assigns⟩ := through
  generalize named : site.name = name at path
  induction path generalizing site with
  | start =>
    have here := List.mem_singleton.mp passed
    exact converts.current?_exit_of_block member inside (here.trans named.symm) assigns
  | @step visited before next path related inductionHypothesis =>
    rcases List.mem_cons.mp passed with here | earlier
    · exact converts.current?_exit_of_block member inside (here.trans named.symm) assigns
    · obtain ⟨source, starts, rfl⟩ := converts.exists_site path.reaches
      have flows := inductionHypothesis starts earlier rfl
      rw [← named] at related
      intro missing
      exact converts.current?_edge starts member related flows
        (Versions.current?_extend_eq_none.mp missing).2

/-- What makes a version of a variable is passed by a path that assigns it. -/
theorem assigned_of_made {maker : Site} (member : maker ∈ sites) (makes : var ∈ maker.made) :
    g.AssignedThrough entry var maker.name := by
  rcases (converts.mem_made member).mp makes with assigns | merges
  · exact .of_assigned (converts.sourced maker member) assigns (converts.reaches member)
  · obtain ⟨p, through, related⟩ := converts.toRooted.arrives_of_merged merges
    exact through.step related

theorem arrives_of_scope {site : Site} (member : site ∈ sites) {version : String}
    (inScope : version ∈ site.scope.stack var) (notParam : var ∉ g.params.map Param.name) :
    ∃ p, g.AssignedThrough entry var p ∧ site.name ∈ g.successors.image p := by
  rcases converts.made_above member inScope with ⟨_, isParam⟩ | ⟨maker, above, strict, made⟩
  · exact absurd isParam notParam
  · have makes : var ∈ maker.made := by
      rcases (converts.grounded member).named var version inScope with ⟨_, isParam⟩ | ⟨number, rfl⟩
      · exact absurd isParam notParam
      · exact Versions.mem_of_mem_numbered made
    obtain ⟨inner, path, _⟩ := strict.1.exists_path_below (converts.reaches member)
    have through := converts.assigned_of_made above makes
    generalize named : site.name = name at path strict
    cases path with
    | start => exact absurd rfl strict.2
    | step path related => exact ⟨_, through.along path, related⟩

/-- A variable has a version in scope at a position exactly if a path assigns it before. -/
theorem current?_eq_none_iff {site : Site} (member : site ∈ sites)
    (notParam : var ∉ g.params.map Param.name) (position : Nat) :
    (site.inside.extend ((site.block.instrs.take position).filterMap Instr.dest)).current? var =
        none ↔ ¬ g.AssignedBefore var site.block position := by
  rw [Versions.current?_extend_eq_none,
    converts.toRooted.assignedBefore_iff (converts.reaches member), not_or, and_comm]
  refine and_congr_left fun _ => ?_
  constructor
  · rintro missing ⟨p, through, related⟩
    obtain ⟨source, starts, rfl⟩ := converts.exists_site through.reaches
    exact converts.current?_edge starts member related
      (converts.current?_exit_of_assigned starts through) missing
  · intro never
    rw [Site.inside, Versions.current?_extend_eq_none]
    constructor
    · intro merges
      exact never (converts.toRooted.arrives_of_merged ((converts.mem_merged member).mp merges))
    · cases found : site.scope.current? var with
      | none => rfl
      | some version =>
        exact absurd (converts.arrives_of_scope member (List.mem_of_head? found) notParam) never

theorem current?_exit_eq_none_iff {site : Site} (member : site ∈ sites)
    (notParam : var ∉ g.params.map Param.name) :
    site.exit.current? var = none ↔
      ¬ g.AssignedBefore var site.block site.block.instrs.length := by
  rw [← converts.current?_eq_none_iff member notParam, List.take_length]
  rfl

/-- An argument that is not a parameter keeps its name exactly if it has no version. -/
theorem resolve_eq_self_iff {site : Site} (member : site ∈ sites)
    (notParam : var ∉ g.params.map Param.name) (vars : List String) :
    (site.inside.extend vars).resolve var = var ↔
      (site.inside.extend vars).current? var = none := by
  rw [Versions.resolve]
  cases found : (site.inside.extend vars).current? var with
  | none => simp
  | some version =>
    have grounded := ((converts.grounded member).extend site.merged).extend vars
    rcases grounded.named var version (List.mem_of_head? found) with ⟨_, isParam⟩ | ⟨number, rfl⟩
    · exact absurd isParam notParam
    · simp [versionName_ne_self]

/-- What flows out of a block is the placeholder exactly if the variable has no version. -/
theorem outgoing_eq_placeholder_iff {site : Site} (member : site ∈ sites)
    (notParam : config.placeholder ∉ g.params.map Param.name)
    (unversioned : g.Unversioned config.placeholder) (assigned : g.Assigns var) :
    site.outgoing config var = config.placeholder ↔ site.exit.current? var = none := by
  rw [Site.outgoing]
  cases found : site.exit.current? var with
  | none => simp
  | some version =>
    have grounded := (converts.grounded member).extend site.made
    rw [← Site.exit_eq] at grounded
    have different : version ≠ config.placeholder := by
      rcases grounded.named var version (List.mem_of_head? found) with
        ⟨rfl, isParam⟩ | ⟨number, rfl⟩
      · exact fun equal => notParam (equal ▸ isParam)
      · exact (unversioned var assigned number).symm
    simp [different]

theorem argument_unchanged_iff {site : Site} (member : site ∈ sites)
    (notParam : var ∉ g.params.map Param.name) {position place : Nat} {original : Instr}
    (found : site.block.instrs[position]? = some original)
    (used : original.args[place]? = some var) :
    ∃ i arg, site.instrs[position]? = some i ∧ i.args[place]? = some arg ∧
      (arg = var ↔ ¬ g.AssignedBefore var site.block position) := by
  let scope := site.inside.extend ((site.block.instrs.take position).filterMap Instr.dest)
  refine ⟨(scope.renameInstr original).1, scope.resolve var, ?_, ?_, ?_⟩
  · rw [Site.instrs, Versions.getElem?_renameInstrs, found]
    rfl
  · simp [Versions.renameInstr_eq, used]
  · rw [converts.resolve_eq_self_iff member notParam, converts.current?_eq_none_iff member notParam]

theorem operand_placeholder_iff {site : Site} (member : site ∈ sites) {made : String × String}
    (listed : made ∈ site.dests) (notParam : config.placeholder ∉ g.params.map Param.name)
    (unversioned : g.Unversioned config.placeholder) {place : Nat} {name : String}
    (label : (g.mergeInstr config sites site.name made).labels[place]? = some name) :
    ∃ operand, (g.mergeInstr config sites site.name made).args[place]? = some operand ∧
      ∃ c ∈ g.blocks, c.name = name ∧
        (made.1 ∉ g.params.map Param.name →
          (operand = config.placeholder ↔ ¬ g.AssignedBefore made.1 c c.instrs.length)) ∧
        (made.1 ∈ g.params.map Param.name → operand ≠ config.placeholder) := by
  rw [mergeInstr, List.getElem?_map, Option.map_eq_some_iff] at label
  obtain ⟨pair, found, rfl⟩ := label
  obtain ⟨source, starts, _, rfl⟩ := mem_incoming.mp (List.mem_of_getElem? found)
  have assigned := converts.toRooted.assigned_of_merged (converts.placed_of_made member listed)
  have missing := converts.outgoing_eq_placeholder_iff starts notParam unversioned assigned
  refine ⟨source.outgoing config made.1, ?_, source.block, converts.sourced source starts, rfl,
    ?_, ?_⟩
  · rw [mergeInstr, List.getElem?_map, found]
    rfl
  · intro isVar
    rw [missing, converts.current?_exit_eq_none_iff starts isVar]
  · intro isParam
    rw [Ne, missing, Versions.current?, List.head?_eq_none_iff, Site.exit_eq]
    exact ((converts.grounded starts).extend source.made).params made.1 isParam

end Converts

/-- A name stays unresolved exactly when no assignment reaches it. In a live block an argument
that is not a parameter is left unchanged if and only if no path from the entry assigns it
before the instruction. An operand of a merge of such a variable is the placeholder if and
only if no path through the end of the operand's block assigns the variable. An operand of a
merge of a parameter is never the placeholder. -/
theorem unresolved_iff_unassigned (f : Function) (checkLabels : Bool) (g converted : FlowGraph)
    (config : Config) (built : ofFunction f checkLabels = .ok g)
    (succeeded : g.toSsa config = .ok converted)
    (notParam : config.placeholder ∉ f.params.map Param.name)
    (unversioned : g.Unversioned config.placeholder) :
    ∀ b ∈ g.blocks, ∃ merges renamed,
      converted.block? b.name = some ⟨b.name, merges ++ renamed⟩ ∧
      renamed.length = b.instrs.length ∧
      (g.Live b.name → ∀ (position : Nat) (original : Instr) (place : Nat) (var : String),
        b.instrs[position]? = some original → original.args[place]? = some var →
        var ∉ f.params.map Param.name →
        ∃ i arg, renamed[position]? = some i ∧ i.args[place]? = some arg ∧
          (arg = var ↔ ¬ g.AssignedBefore var b position)) ∧
      ∀ phi ∈ merges, phi.isPhi = true ∧
        ∃ var number, phi.dest = some (versionName var number) ∧
          ∀ (place : Nat) (source : String), phi.labels[place]? = some source →
            ∃ operand, phi.args[place]? = some operand ∧ ∃ c ∈ g.blocks, c.name = source ∧
              (var ∉ f.params.map Param.name →
                (operand = config.placeholder ↔ ¬ g.AssignedBefore var c c.instrs.length)) ∧
              (var ∈ f.params.map Param.name → operand ≠ config.placeholder) := by
  intro b inside
  obtain ⟨entry, sites, converts, rfl⟩ :=
    (wellFormed_ofFunction built).converts_of_toSsa succeeded inside
  have params := params_ofFunction built
  rw [← params] at notParam ⊢
  rw [converts.block?_finished inside]
  by_cases reached : g.successors.Reaches entry b.name
  · obtain ⟨site, member, rfl⟩ := converts.exists_site_of_block inside reached
    refine ⟨g.mergesAt config sites site, site.instrs, ?_, Versions.length_renameInstrs _, ?_, ?_⟩
    · rw [converts.finished_of_site member]
    · intro _ position original place var found used isVar
      exact converts.argument_unchanged_iff member isVar found used
    · intro phi inFront
      obtain ⟨made, listed, rfl⟩ := List.mem_map.mp inFront
      obtain ⟨number, stems⟩ := Site.exists_number listed
      refine ⟨rfl, made.1, number, congrArg some stems, ?_⟩
      intro place source label
      exact converts.operand_placeholder_iff member listed notParam unversioned label
  · refine ⟨[], b.instrs, ?_, rfl, ?_, by simp⟩
    · rw [converts.finished_of_unreached reached]
      rfl
    · intro live
      exact absurd (converts.toRooted.live_iff.mp live) reached

/-- A loop whose first round finds no value of a variable that it assigns, behind a block that
nothing reaches and that assigns another one. -/
def awaiting : Function where
  name := "main"
  params := [⟨"c", .primitive "bool"⟩]
  body := [
    .instr (.br "c" "left" "loop"),
    .label "left",
    .instr (.jmp "loop"),
    .instr (.constant "u" (.primitive "int") (.int 1)),
    .label "loop",
    .instr (.effect "print" ["u", "w"]),
    .instr (.constant "w" (.primitive "int") (.int 2)),
    .instr (.br "c" "loop" "out"),
    .label "out",
    .instr (.effect "print" ["w"])]

def awaitingLoop : Block where
  name := "loop"
  instrs := [
    .effect "print" ["u", "w"], .constant "w" (.primitive "int") (.int 2), .br "c" "loop" "out"]

def awaitingMerge : Instr :=
  { op := "phi", dest := some "w.0", ty := some (.primitive "int"),
    args := ["__undefined", "__undefined", "w.1"], labels := ["bb1", "left", "loop"] }

theorem unresolved_iff_unassigned_awaiting :
    ∃ g converted, ofFunction awaiting true = .ok g ∧ g.toSsa {} = .ok converted ∧
      awaitingLoop ∈ g.blocks ∧
      (∃ merges renamed, converted.block? "loop" = some ⟨"loop", merges ++ renamed⟩ ∧
        awaitingMerge ∈ merges ∧ renamed[0]? = some (.effect "print" ["u", "w.0"])) ∧
      ¬ g.AssignedBefore "u" awaitingLoop 0 ∧ g.AssignedBefore "w" awaitingLoop 0 ∧
      ∃ c ∈ g.blocks, c.name = "left" ∧ ¬ g.AssignedBefore "w" c c.instrs.length := by
  have facts : (ofFunction awaiting true).toOption.any (fun g =>
      (g.toSsa {}).toOption.any fun converted =>
        awaitingLoop ∈ g.blocks ∧ g.Live "loop" ∧
        ∀ b ∈ converted.block? "loop", b.instrs[0]? = some awaitingMerge ∧
          b.instrs[1]? = some (.effect "print" ["u", "w.0"]) ∧ b.instrs.length = 4) = true := by
    decide +kernel
  obtain ⟨g, built, facts⟩ := exists_ok_of_any facts
  obtain ⟨converted, succeeded, facts⟩ := exists_ok_of_any facts
  obtain ⟨inside, live, block⟩ := of_decide_eq_true facts
  obtain ⟨merges, renamed, changed, length, arguments, operands⟩ :=
    unresolved_iff_unassigned awaiting true g converted {} built succeeded (by decide)
      (unversioned_of_no_dot (by decide)) awaitingLoop inside
  obtain ⟨first, second, whole⟩ := block _ changed
  have one : merges.length = 1 := by
    rw [List.length_append, length] at whole
    exact Nat.add_right_cancel whole
  rw [List.getElem?_append_left (by omega)] at first
  rw [List.getElem?_append_right (by omega), one] at second
  have merge := List.mem_of_getElem? first
  refine ⟨g, converted, built, succeeded, inside, ⟨merges, renamed, changed, merge, second⟩,
    ?_, ?_, ?_⟩
  · obtain ⟨i, arg, found, used, unchanged⟩ := arguments live 0 _ 0 "u" rfl rfl (by decide)
    cases second.symm.trans found
    cases used
    exact unchanged.mp rfl
  · obtain ⟨i, arg, found, used, unchanged⟩ := arguments live 0 _ 1 "w" rfl rfl (by decide)
    cases second.symm.trans found
    cases used
    exact Classical.not_not.mp fun never => absurd (unchanged.mpr never) (by decide)
  · obtain ⟨_, var, number, dest, sources⟩ := operands _ merge
    obtain ⟨operand, used, c, listed, named, missing, _⟩ := sources 1 "left" rfl
    cases used
    have version : versionName var number = versionName "w" 0 :=
      (Option.some.inj dest).symm.trans (by decide)
    obtain ⟨rfl, _⟩ := versionName_injective version
    exact ⟨c, listed, named, (missing (by decide)).mp rfl⟩

end SsaForm.FlowGraph
