import SsaForm.Proofs.Conversion.Invariant
import SsaForm.Proofs.Conversion.Operands
import SsaForm.Proofs.Naming
import SsaForm.Proofs.Renaming.Stopping

/-!
# Strict conversions and placeholders

A strict conversion and one with a placeholder make the same visits as long as every version
that a visit hands on is there. So a strict conversion that succeeds gives what every
placeholder gives, and one that fails names a variable and a block out of which every
placeholder flows into a merge of the variable. That placeholder shows in the result, so no
result is the same for all of them.
-/

namespace SsaForm

/-- The same settings under which an unassigned variable is refused. -/
def Config.refusing (config : Config) : Config :=
  { config with unassigned := .refuse }

/-- The same settings with a placeholder for unassigned variables. -/
def Config.filling (config : Config) (placeholder : String) : Config :=
  { config with unassigned := .placeholder, placeholder }

namespace Function

def arguments (f : Function) : List String :=
  f.body.flatMap fun item =>
    match item with
    | .label _ => []
    | .instr i => i.args

theorem toSsa_of_built {f : Function} {config : Config} {g : FlowGraph}
    (built : FlowGraph.ofFunction f config.checkLabels = .ok g) :
    f.toSsa config = (g.toSsa config).map FlowGraph.toFunction := by
  rw [toSsa, built]
  change (g.toSsa config).bind _ = _
  cases g.toSsa config with
  | error fault => rfl
  | ok converted => rfl

end Function

namespace FlowGraph

open Renaming

/-- The conversion has given a live successor of a block a merge of the variable, and the
operand of the merge for that block has the given name. -/
def FlowsInto (g converted : FlowGraph) (var block operand : String) : Prop :=
  ∃ b ∈ g.blocks, g.Live b.name ∧ b.name ∈ g.successors.image block ∧
    ∃ merges renamed, converted.block? b.name = some ⟨b.name, merges ++ renamed⟩ ∧
      renamed.length = b.instrs.length ∧
      ∃ phi ∈ merges, phi.isPhi = true ∧ (∃ number, phi.dest = some (versionName var number)) ∧
        (block, operand) ∈ phi.labels.zip phi.args

variable {g converted : FlowGraph} {config : Config} {entry var : String}

theorem mem_arguments_toFunction {b : Block} {i : Instr} {name : String} (inside : b ∈ g.blocks)
    (listed : i ∈ b.instrs) (used : name ∈ i.args) : name ∈ g.toFunction.arguments := by
  have written : Item.instr i ∈ g.body :=
    List.mem_flatMap.mpr ⟨b, inside, List.mem_cons_of_mem _ (List.mem_map_of_mem listed)⟩
  exact List.mem_flatMap.mpr ⟨.instr i, written, used⟩

theorem mem_of_block? {name : String} {b : Block} (found : g.block? name = some b) :
    b ∈ g.blocks := by
  obtain ⟨position, _, here⟩ := Option.bind_eq_some_iff.mp found
  exact List.mem_of_getElem? here

theorem FlowsInto.mem_arguments {block operand : String}
    (flows : g.FlowsInto converted var block operand) :
    operand ∈ converted.toFunction.arguments := by
  obtain ⟨_, _, _, _, merges, renamed, changed, _, phi, listed, _, _, paired⟩ := flows
  exact mem_arguments_toFunction (mem_of_block? changed) (List.mem_append_left _ listed)
    (List.of_mem_zip paired).2

theorem Converts.flowsInto {sites : List Site} (converts : g.Converts config entry sites)
    {successor block operand : String}
    (handed : (block, operand) ∈ incoming (g.plan config) sites successor var) :
    g.FlowsInto { g with blocks := g.blocks.map (g.finished config sites) } var block operand := by
  obtain ⟨source, _, feeds, same⟩ := mem_incoming.mp handed
  cases same
  obtain ⟨edge, merges⟩ := mem_fed.mp feeds
  obtain ⟨reached, related⟩ := converts.toRooted.mem_surveyed_successors.mp edge
  obtain ⟨target, member, rfl⟩ := converts.exists_site (reached.step related)
  have placed : var ∈ target.dests.map Prod.fst := by
    rw [Site.map_fst_dests]
    exact (converts.mem_merged member).mpr merges
  obtain ⟨made, listed, rfl⟩ := List.mem_map.mp placed
  have inside := converts.sourced target member
  refine ⟨target.block, inside, converts.toRooted.live_iff.mpr (reached.step related), related,
    g.mergesAt config sites target, target.instrs, ?_, Versions.length_renameInstrs _,
    g.mergeInstr config sites target.name made, List.mem_map_of_mem listed, rfl, ?_, ?_⟩
  · rw [converts.block?_finished inside, converts.finished_of_site member]
  · obtain ⟨number, equal⟩ := Site.exists_number listed
    exact ⟨number, congrArg some equal⟩
  · simpa [mergeInstr, List.zip_map'] using handed

theorem Rooted.toSsa_of_walk (rooted : g.Rooted entry) {state : State}
    (visited : g.conversionWalk config entry = .ok state) :
    g.toSsa config =
      .ok { g with blocks := Phi.insert state.tables g.declaredTypes state.blocks } := by
  rcases rooted.convert_cases with ⟨last, same, succeeded, graph⟩ | ⟨stop, stopped, _⟩
  · cases visited.symm.trans same
    exact toSsa_eq_ok.mpr ⟨succeeded, graph⟩
  · cases visited.symm.trans stopped

theorem Rooted.toSsa_of_stop (rooted : g.Rooted entry) {stop : Stop}
    (stopped : g.conversionWalk config entry = .error stop) :
    g.toSsa config = .error stop.fault := by
  rcases rooted.convert_cases with ⟨last, visited, _⟩ | ⟨_, same, failed, _⟩
  · cases stopped.symm.trans visited
  · cases stopped.symm.trans same
    rw [toSsa, failed]

theorem Rooted.accompanies (rooted : g.Rooted entry) (config : Config) (name : String) :
    Accompanies (g.plan config.refusing) name (g.conversionWalk config.refusing entry)
      (g.conversionWalk (config.filling name) entry) := by
  have refuses : (g.plan config.refusing).config.unassigned = .refuse := rfl
  have lenient : (config.filling name).unassigned = .placeholder := rfl
  exact visitTree_accompanies refuses lenient _ rooted.mem_names_of_unfold

/-- Every placeholder flows out of the block at which a strict conversion stops. -/
theorem Rooted.flowsInto_of_stop (rooted : g.Rooted entry) {stop : Stop}
    (stopped : g.conversionWalk config.refusing entry = .error stop) (name : String) :
    ∃ var block converted, stop.fault = .unassigned var block ∧
      g.toSsa (config.filling name) = .ok converted ∧ g.FlowsInto converted var block name := by
  have walks := rooted.accompanies config name
  rw [stopped] at walks
  cases visited : g.conversionWalk (config.filling name) entry with
  | error other =>
    rw [visited] at walks
    cases walks
  | ok state =>
    rw [visited] at walks
    cases walks with
    | beyond fault feeds stands =>
      obtain ⟨sites, converts, reflects⟩ := rooted.converts_of_walk visited
      rw [reflects.operands] at stands
      refine ⟨_, _, _, fault, rooted.toSsa_of_walk visited, ?_⟩
      rw [insert_eq_finished converts.once reflects converts.merged]
      exact converts.flowsInto stands

/-- A strict conversion gives what every placeholder gives, or it stops at a block out of which
every placeholder flows. -/
theorem WellFormed.strict_cases (wellFormed : g.WellFormed) (resolved : g.dangling? = none)
    (config : Config) :
    (∃ converted, g.toSsa config.refusing = .ok converted ∧
      ∀ name, g.toSsa (config.filling name) = .ok converted) ∨
    ∃ var block, g.toSsa config.refusing = .error (.unassigned var block) ∧
      ∀ name, ∃ converted, g.toSsa (config.filling name) = .ok converted ∧
        g.FlowsInto converted var block name := by
  cases root : g.entry? with
  | none => exact .inl ⟨g, toSsa_of_no_entry root, fun _ => toSsa_of_no_entry root⟩
  | some entry =>
    have rooted : g.Rooted entry := { wellFormed with root, resolved }
    cases strictly : g.conversionWalk config.refusing entry with
    | ok state =>
      refine .inl ⟨_, rooted.toSsa_of_walk strictly, ?_⟩
      intro name
      have walks := rooted.accompanies config name
      rw [strictly] at walks
      cases visited : g.conversionWalk (config.filling name) entry with
      | error stop =>
        rw [visited] at walks
        cases walks
      | ok other =>
        rw [visited] at walks
        cases walks
        exact rooted.toSsa_of_walk visited
    | error stop =>
      -- The fault is the strict walk's alone, so any placeholder serves to read it off.
      obtain ⟨var, block, _, fault, _⟩ := rooted.flowsInto_of_stop strictly ""
      refine .inr ⟨var, block, ?_, ?_⟩
      · rw [rooted.toSsa_of_stop strictly, fault]
      · intro name
        obtain ⟨_, _, converted, same, succeeded, flows⟩ := rooted.flowsInto_of_stop strictly name
        cases fault.symm.trans same
        exact ⟨converted, succeeded, flows⟩

/-- A placeholder that a function does not use as an argument tells the result apart. -/
theorem exists_other_result {block : String}
    (flows : ∀ name, ∃ converted, g.toSsa (config.filling name) = .ok converted ∧
      g.FlowsInto converted var block name) (result : Function) :
    ∃ name converted, g.toSsa (config.filling name) = .ok converted ∧
      converted.toFunction ≠ result := by
  obtain ⟨converted, succeeded, shows⟩ := flows (freshName "v" (.ofList result.arguments))
  refine ⟨_, converted, succeeded, ?_⟩
  rintro rfl
  exact freshName_not_mem "v" _ (KeySet.mem_ofList.mpr shows.mem_arguments)

/-- Strict conversion and conversion with placeholders agree. A strict conversion succeeds with
a result exactly if every placeholder gives that result, for the graph and for the function.
Otherwise it reports a variable and a block such that, under every placeholder, a live successor
of the block has got a merge of the variable whose operand for the block is the placeholder. -/
theorem refusing_iff_every_filling (f : Function) (config : Config) (g : FlowGraph)
    (built : ofFunction f config.checkLabels = .ok g) (resolved : g.dangling? = none) :
    (∀ converted, g.toSsa config.refusing = .ok converted ↔
      ∀ name, g.toSsa (config.filling name) = .ok converted) ∧
    (∀ result, f.toSsa config.refusing = .ok result ↔
      ∀ name, f.toSsa (config.filling name) = .ok result) ∧
    ((∀ result, f.toSsa config.refusing ≠ .ok result) →
      ∃ var block, g.toSsa config.refusing = .error (.unassigned var block) ∧
        f.toSsa config.refusing = .error (.unassigned var block) ∧
        ∀ name, ∃ converted, g.toSsa (config.filling name) = .ok converted ∧
          f.toSsa (config.filling name) = .ok converted.toFunction ∧
          g.FlowsInto converted var block name) := by
  have strictly : f.toSsa config.refusing = (g.toSsa config.refusing).map toFunction :=
    Function.toSsa_of_built built
  have filled : ∀ name, f.toSsa (config.filling name) =
      (g.toSsa (config.filling name)).map toFunction := fun name => Function.toSsa_of_built built
  rcases (wellFormed_ofFunction built).strict_cases resolved config with
    ⟨converted, refused, all⟩ | ⟨var, block, refused, flows⟩
  · simp [strictly, filled, refused, all, Except.map]
  · refine ⟨?_, ?_, ?_⟩
    · intro result
      refine iff_of_false (by simp [refused]) ?_
      intro all
      obtain ⟨name, converted, succeeded, apart⟩ := exists_other_result flows result.toFunction
      cases (all name).symm.trans succeeded
      exact apart rfl
    · intro result
      refine iff_of_false (by simp [strictly, refused, Except.map]) ?_
      intro all
      obtain ⟨name, converted, succeeded, apart⟩ := exists_other_result flows result
      have same := all name
      rw [filled, succeeded] at same
      cases same
      exact apart rfl
    · intro _
      refine ⟨var, block, refused, by rw [strictly, refused]; rfl, ?_⟩
      intro name
      obtain ⟨converted, succeeded, shows⟩ := flows name
      exact ⟨converted, succeeded, by rw [filled, succeeded]; rfl, shows⟩

theorem refusing_iff_every_filling_stumbling :
    ∃ g, ofFunction stumbling true = .ok g ∧ g.toSsa .strict = .error (.unassigned "x" "next") ∧
      ∀ name, ∃ converted, g.toSsa { placeholder := name } = .ok converted ∧
        g.FlowsInto converted "x" "next" name := by
  have facts : (ofFunction stumbling true).toOption.any (fun g =>
      g.dangling? = none ∧ (g.convert .strict).fault? = some (.unassigned "x" "next")) = true := by
    decide +kernel
  obtain ⟨g, built, facts⟩ := exists_ok_of_any facts
  obtain ⟨resolved, failed⟩ := of_decide_eq_true facts
  have stopped : g.toSsa .strict = .error (.unassigned "x" "next") := by rw [toSsa, failed]
  have refused : ∀ result, stumbling.toSsa .strict ≠ .ok result := by
    have whole : stumbling.toSsa .strict = (g.toSsa .strict).map toFunction :=
      Function.toSsa_of_built built
    simp [whole, stopped, Except.map]
  obtain ⟨var, block, same, _, flows⟩ :=
    (refusing_iff_every_filling stumbling {} g built resolved).2.2 refused
  cases stopped.symm.trans same
  refine ⟨g, built, stopped, ?_⟩
  intro name
  obtain ⟨converted, succeeded, _, shows⟩ := flows name
  exact ⟨converted, succeeded, shows⟩

end FlowGraph

end SsaForm
