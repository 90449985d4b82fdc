import SsaForm.Proofs.Conversion.Numbering
import SsaForm.Proofs.Dominance.Convergence

/-!
# Merges cover the predecessors of their block

An operand is recorded when the walk passes the predecessor it comes from, and by then the
merge may not have been visited itself. Since the walk passes every reached block once, each
merge of a block ends up with one operand from every reached predecessor, in the order of
the walk. There are two of them at least: a merge stands where the dominance of some block
ends, so one predecessor is dominated by that block and another one is not.
-/

namespace SsaForm

theorem two_le_length_of_mem {α : Type} {elements : List α} {a b : α} (left : a ∈ elements)
    (right : b ∈ elements) (apart : a ≠ b) : 2 ≤ elements.length := by
  match elements with
  | [] => cases left
  | [_] =>
    have same := (List.mem_singleton.mp left).trans (List.mem_singleton.mp right).symm
    exact absurd same apart
  | _ :: _ :: _ => simp

namespace FlowGraph

open Renaming

/-- A merge has one operand for each reached predecessor of its block, two at least, in a
given order of the blocks. -/
structure CoversPredecessors (g : FlowGraph) (order : List String) (name : String) (phi : Instr) :
    Prop where
  paired : phi.args.length = phi.labels.length
  distinct : phi.labels.Nodup
  complete : ∀ p, p ∈ phi.labels ↔ g.Live p ∧ p ∈ g.predecessors.image name
  several : 2 ≤ phi.labels.length
  ordered : phi.labels = order.filter fun p => p ∈ g.predecessors.image name

/-- Instructions are the merges of a block, one for each variable that is placed there, in
ascending order of the variables. -/
def MergesAscending (g : FlowGraph) (name : String) (merges : List Instr) : Prop :=
  ∃ vars : List String, (vars.Pairwise fun first second => compare first second = .lt) ∧
    (∀ var, var ∈ vars ↔ var ∈ g.surveyed.phis.image name) ∧ merges.length = vars.length ∧
    ∀ (position : Nat) (phi : Instr) (var : String), merges[position]? = some phi →
      vars[position]? = some var →
      phi.isPhi = true ∧ ∃ number, phi.dest = some (versionName var number)

variable {g : FlowGraph} {config : Config} {entry : String} {sites : List Site}

/-- A block that merges a variable is entered from two reached blocks. -/
theorem Rooted.exists_two_predecessors (rooted : g.Rooted entry) {var name : String}
    (merges : var ∈ g.surveyed.phis.image name) :
    ∃ p q, p ≠ q ∧ (g.successors.Reaches entry p ∧ name ∈ g.successors.image p) ∧
      g.successors.Reaches entry q ∧ name ∈ g.successors.image q := by
  obtain ⟨reached, inner⟩ := rooted.reaches_of_merged merges
  obtain ⟨maker, ends⟩ := Phi.range_of_mem_place merges
  obtain ⟨_, ⟨p, known, dominated, related⟩, ended⟩ := rooted.mem_frontiers.mp ends
  obtain ⟨q, outer, path, edge, outside⟩ := exists_path_outside reached inner ended
  refine ⟨p, q, ?_, ⟨known, related⟩, path.reaches, edge⟩
  rintro rfl
  exact outside p path.end_mem dominated

namespace Converts

variable (converts : g.Converts config entry sites)

include converts

theorem map_fst_incoming {name var : String} (merges : var ∈ g.surveyed.phis.image name) :
    (incoming (g.plan config) sites name var).map Prod.fst =
      (sites.map Site.name).filter fun p => p ∈ g.predecessors.image name := by
  have listed : var ∈ (g.plan config).phis.image name := merges
  rw [Renaming.map_fst_incoming listed]
  apply List.filter_congr
  intro p visited
  simp [plan, converts.toRooted.mem_surveyed_successors, converts.toRooted.mem_predecessors,
    (converts.live p).mp visited]

theorem placed_of_made {site : Site} (member : site ∈ sites) {made : String × String}
    (listed : made ∈ site.dests) : made.1 ∈ g.surveyed.phis.image site.name := by
  rw [← converts.mem_merged member, ← Site.map_fst_dests]
  exact List.mem_map_of_mem listed

theorem coversPredecessors {site : Site} (member : site ∈ sites) {made : String × String}
    (listed : made ∈ site.dests) :
    g.CoversPredecessors (sites.map Site.name) site.name
      (g.mergeInstr config sites site.name made) := by
  have placed := converts.placed_of_made member listed
  have labels : (g.mergeInstr config sites site.name made).labels =
      (sites.map Site.name).filter fun p => p ∈ g.predecessors.image site.name :=
    converts.map_fst_incoming placed
  have complete : ∀ p, p ∈ (g.mergeInstr config sites site.name made).labels ↔
      g.Live p ∧ p ∈ g.predecessors.image site.name := by
    intro p
    simp [labels, converts.live, converts.toRooted.live_iff]
  refine ⟨?_, ?_, complete, ?_, labels⟩
  · simp [mergeInstr]
  · rw [labels]
    exact converts.once.filter _
  · obtain ⟨p, q, apart, ⟨left, edge⟩, right, edge'⟩ :=
      converts.toRooted.exists_two_predecessors placed
    apply two_le_length_of_mem ((complete p).mpr ?_) ((complete q).mpr ?_) apart
    · exact ⟨converts.toRooted.live_iff.mpr left, converts.toRooted.mem_predecessors.mpr edge⟩
    · exact ⟨converts.toRooted.live_iff.mpr right, converts.toRooted.mem_predecessors.mpr edge'⟩

theorem mergesAscending {site : Site} (member : site ∈ sites) :
    g.MergesAscending site.name (g.mergesAt config sites site) := by
  refine ⟨site.merged, ?_, fun _ => converts.mem_merged member, ?_, ?_⟩
  · rw [converts.merged site member]
    exact Std.ExtTreeSet.ordered_toList
  · rw [converts.length_mergesAt member, converts.merged site member, Std.ExtTreeSet.length_toList]
  · intro position phi var found listed
    rw [mergesAt, List.getElem?_map, Option.map_eq_some_iff] at found
    obtain ⟨made, here, rfl⟩ := found
    rw [← Site.map_fst_dests, List.getElem?_map, here] at listed
    cases listed
    obtain ⟨number, equal⟩ := Site.exists_number (List.mem_of_getElem? here)
    exact ⟨rfl, number, congrArg some equal⟩

theorem block?_finished {b : Block} (inside : b ∈ g.blocks) :
    ({ g with blocks := g.blocks.map (g.finished config sites) } : FlowGraph).block? b.name =
      some (g.finished config sites b) :=
  converts.toWellFormed.block?_map_of_mem _ inside

end Converts

theorem mergesAscending_nil {name : String} (unmerged : ∀ var, var ∉ g.surveyed.phis.image name) :
    g.MergesAscending name [] :=
  ⟨[], .nil, by simpa using unmerged, rfl, by simp⟩

/-- Every merge covers the predecessors of its block exactly once. A converted block consists
of its merges, one for each variable that is placed there and in ascending order of the
variables, and of as many instructions as before. Each merge has as many operands as labels.
The labels are the live predecessors of the block, each of them once and two at least, in the
order in which the preorder of the dominator tree visits them. -/
theorem merges_cover_predecessors (f : Function) (checkLabels : Bool) (g converted : FlowGraph)
    (config : Config) (built : ofFunction f checkLabels = .ok g)
    (succeeded : g.toSsa config = .ok converted) :
    ∃ order, g.LivePreorder order ∧
      ∀ b ∈ g.blocks, ∃ merges renamed,
        converted.block? b.name = some ⟨b.name, merges ++ renamed⟩ ∧
        renamed.length = b.instrs.length ∧ g.MergesAscending b.name merges ∧
        ∀ phi ∈ merges, g.CoversPredecessors order b.name phi := by
  cases listed : g.blocks with
  | nil => exact ⟨[], .inl ⟨entry?_eq_none.mpr listed, rfl⟩, by simp⟩
  | cons first rest =>
    have inside : first ∈ g.blocks := by rw [listed]; exact List.mem_cons_self
    obtain ⟨entry, sites, converts, rfl⟩ :=
      (wellFormed_ofFunction built).converts_of_toSsa succeeded inside
    rw [← listed]
    refine ⟨sites.map Site.name, converts.livePreorder, ?_⟩
    intro b inside
    rw [converts.block?_finished inside]
    by_cases reached : g.successors.Reaches entry b.name
    · obtain ⟨site, member, rfl⟩ := converts.exists_site_of_block inside reached
      refine ⟨g.mergesAt config sites site, site.instrs, ?_, Versions.length_renameInstrs _,
        converts.mergesAscending member, ?_⟩
      · rw [converts.finished_of_site member]
      · intro phi inFront
        obtain ⟨made, listed, rfl⟩ := List.mem_map.mp inFront
        exact converts.coversPredecessors member listed
    · refine ⟨[], b.instrs, ?_, rfl, mergesAscending_nil ?_, by simp⟩
      · rw [converts.finished_of_unreached reached]
        rfl
      · intro var merges
        exact reached (converts.toRooted.reaches_of_merged merges).1

/-- A loop of one block that is entered from three others: by both ends of a branch, by a
jump, and from a block that nothing reaches. -/
def gathering : Function where
  name := "main"
  params := [⟨"c", .primitive "bool"⟩]
  body := [
    .instr (.constant "x" (.primitive "int") (.int 0)),
    .instr (.br "c" "left" "right"),
    .label "left",
    .instr (.constant "x" (.primitive "int") (.int 1)),
    .instr (.br "c" "join" "join"),
    .label "right",
    .instr (.jmp "join"),
    .instr (.constant "x" (.primitive "int") (.int 2)),
    .instr (.jmp "join"),
    .label "join",
    .instr (.assign "add" "y" (.primitive "int") ["y", "x"]),
    .instr (.br "c" "join" "out"),
    .label "out",
    .instr (.effect "print" ["x", "y"])]

/-- The second of the two merges in the loop. -/
def gatheringMerge : Instr :=
  { op := "phi", dest := some "y.0", ty := some (.primitive "int"),
    args := ["y.1", "__undefined", "__undefined"], labels := ["join", "left", "right"] }

theorem merges_cover_predecessors_gathering :
    ∃ g converted, ofFunction gathering true = .ok g ∧ g.toSsa {} = .ok converted ∧
      (g.predecessors.image "join").toList = ["bb2", "join", "left", "right"] ∧
      ∃ order merges renamed, g.LivePreorder order ∧
        converted.block? "join" = some ⟨"join", merges ++ renamed⟩ ∧ gatheringMerge ∈ merges ∧
        g.CoversPredecessors order "join" gatheringMerge := by
  have facts : (ofFunction gathering true).toOption.any (fun g =>
      (g.toSsa {}).toOption.any fun converted =>
        (⟨"join", [.assign "add" "y" (.primitive "int") ["y", "x"], .br "c" "join" "out"]⟩ ∈
          g.blocks) ∧
        (∀ b ∈ converted.block? "join",
          b.instrs[1]? = some gatheringMerge ∧ b.instrs.length = 4) ∧
        (g.predecessors.image "join").toList = ["bb2", "join", "left", "right"]) = true := by
    decide +kernel
  obtain ⟨g, built, facts⟩ := exists_ok_of_any facts
  obtain ⟨converted, succeeded, facts⟩ := exists_ok_of_any facts
  obtain ⟨inside, block, predecessors⟩ := of_decide_eq_true facts
  obtain ⟨order, preorder, covered⟩ :=
    merges_cover_predecessors gathering true g converted {} built succeeded
  obtain ⟨merges, renamed, changed, length, _, covers⟩ := covered _ inside
  obtain ⟨second, whole⟩ := block _ changed
  have two : merges.length = 2 := by
    rw [List.length_append, length] at whole
    exact Nat.add_right_cancel whole
  rw [List.getElem?_append_left (by omega)] at second
  have merge := List.mem_of_getElem? second
  exact ⟨g, converted, built, succeeded, predecessors, order, merges, renamed, preorder, changed,
    merge, covers _ merge⟩

end FlowGraph

end SsaForm
