import SsaForm.Proofs.Conversion.Invariant
import SsaForm.Proofs.Conversion.Survey

/-!
# The dominance frontiers of a graph

Frontiers are taken from the dominator sets of the live blocks. A live block has in its frontier
the blocks where its dominance ends: they follow a live block that it dominates, and it does
not strictly dominate them. A block that something it dominates leads back to is in its own
frontier, and a dead predecessor counts for nothing.
-/

namespace SsaForm.FlowGraph

variable {g : FlowGraph} {entry : String}

theorem WellFormed.dominanceFrontiers_eq_surveyed (wellFormed : g.WellFormed) {edges : Edges}
    (found : g.edges = .ok edges) : g.dominanceFrontiers = .ok g.surveyed.frontiers := by
  unfold dominanceFrontiers
  rw [found, (wellFormed.edges_eq_ok found).2]
  rfl

/-- Without blocks there are no frontiers. -/
theorem not_mem_frontiers_of_no_entry (rootless : g.entry? = none) (name : String) :
    name ∉ g.surveyed.frontiers := by
  unfold surveyed survey SsaForm.frontiers
  rw [KeySet.mem_tabulate, Relation.mem_domain]
  exact not_mem_liveDominators_of_no_entry rootless _ name

namespace Rooted

variable (rooted : g.Rooted entry)

include rooted

theorem mem_frontiers_keys {name : String} : name ∈ g.surveyed.frontiers ↔ g.Live name :=
  rooted.isDominance.mem_frontiers_keys.trans rooted.live_iff.symm

/-- Dominance ends at a block that a live predecessor leads to from what is dominated. -/
theorem mem_frontiers_iff_predecessor {d m : String} (live : g.Live d) :
    m ∈ g.surveyed.frontiers.image d ↔
      (∃ p ∈ g.predecessors.image m, g.Live p ∧ Dominates g.successors entry d p) ∧
        ¬ StrictlyDominates g.successors entry d m := by
  have predecessor : (∃ p, g.successors.Reaches entry p ∧ Dominates g.successors entry d p ∧
      m ∈ g.successors.image p) ↔
      ∃ p ∈ g.predecessors.image m, g.Live p ∧ Dominates g.successors entry d p := by
    simp only [rooted.mem_predecessors, rooted.live_iff]
    constructor
    · rintro ⟨p, reached, dominates, related⟩
      exact ⟨p, related, reached, dominates⟩
    · rintro ⟨p, related, reached, dominates⟩
      exact ⟨p, reached, dominates, related⟩
  rw [rooted.mem_frontiers, and_iff_right (rooted.live_iff.mp live), predecessor]

/-- Nothing leads to the entry, so dominance ends nowhere at it. -/
theorem entry_not_mem_frontiers (d : String) : entry ∉ g.surveyed.frontiers.image d := by
  intro member
  obtain ⟨_, ⟨p, _, _, related⟩, _⟩ := rooted.mem_frontiers.mp member
  exact rooted.entry_not_target related

end Rooted

/-- The frontiers of every graph without dangling edges, newly built or converted any number of
times, are those of dominance. Their keys are the live blocks. A block is in the frontier of a
live block if it has a live predecessor that the live block dominates, and if the live block
does not strictly dominate it. The entry is in no frontier. -/
theorem dominanceFrontiers_end_dominance (f : Function) (checkLabels : Bool) (g h : FlowGraph)
    (built : ofFunction f checkLabels = .ok g) (configs : List Config)
    (converted : h = g.convertAll configs) (edges : Edges) (found : h.edges = .ok edges) :
    ∃ frontiers, h.dominanceFrontiers = .ok frontiers ∧
      (∀ name, name ∈ frontiers ↔ h.Live name) ∧
      ∀ entry, h.entry? = some entry →
        (∀ d, h.Live d → ∀ m, m ∈ frontiers.image d ↔
          (∃ p ∈ edges.predecessors.image m,
            h.Live p ∧ Dominates edges.successors entry d p) ∧
          ¬ StrictlyDominates edges.successors entry d m) ∧
        ∀ d, entry ∉ frontiers.image d := by
  have wellFormed : h.WellFormed :=
    converted ▸ wellFormed_convertAll (wellFormed_ofFunction built) configs
  refine ⟨h.surveyed.frontiers, wellFormed.dominanceFrontiers_eq_surveyed found, ?_⟩
  rw [(wellFormed.edges_eq_ok found).2]
  cases root : h.entry? with
  | none =>
    refine ⟨fun name => ?_, nofun⟩
    exact iff_of_false (not_mem_frontiers_of_no_entry root name) (not_live_of_no_entry root name)
  | some entry =>
    have rooted := Rooted.of_edges wellFormed found root
    refine ⟨fun name => rooted.mem_frontiers_keys, ?_⟩
    rintro _ ⟨⟩
    exact ⟨fun d live m => rooted.mem_frontiers_iff_predecessor live,
      rooted.entry_not_mem_frontiers⟩

/-- A block that leads back to itself, a block behind it that can be entered around it, and a
dead block that leads there as well. -/
def circling : Function where
  name := "main"
  params := [⟨"c", .primitive "bool"⟩]
  body := [
    .instr (.br "c" "loop" "out"),
    .label "loop",
    .instr (.assign "not" "c" (.primitive "bool") ["c"]),
    .instr (.br "c" "loop" "out"),
    .label "dead",
    .instr (.jmp "out"),
    .label "out",
    .instr (.ret ["c"])]

/-- The block is in its own frontier, and so is the one behind it, which it does not dominate. -/
theorem dominanceFrontiers_end_dominance_circling :
    ∃ g h edges frontiers, ofFunction circling true = .ok g ∧ h = g.convertAll [{}] ∧ g ≠ h ∧
      h.edges = .ok edges ∧ h.dominanceFrontiers = .ok frontiers ∧ "dead" ∉ frontiers ∧
      "loop" ∈ frontiers.image "loop" ∧ "out" ∈ frontiers.image "loop" ∧
      "dead" ∈ edges.predecessors.image "out" ∧
      ¬ StrictlyDominates edges.successors "bb1" "loop" "out" ∧
      (∃ p ∈ edges.predecessors.image "loop",
        h.Live p ∧ Dominates edges.successors "bb1" "loop" p) ∧
      ∀ d, "bb1" ∉ frontiers.image d := by
  have facts : (ofFunction circling true).toOption.any (fun g =>
      (g.convertAll [{}]).edges.toOption.any fun edges =>
      (g.convertAll [{}]).dominanceFrontiers.toOption.any fun frontiers =>
        g ≠ g.convertAll [{}] ∧ FlowGraph.entry? (g.convertAll [{}]) = some "bb1" ∧
        ¬ (g.convertAll [{}]).Live "dead" ∧ (g.convertAll [{}]).Live "loop" ∧
        "loop" ∈ frontiers.image "loop" ∧ "out" ∈ frontiers.image "loop" ∧
        "dead" ∈ edges.predecessors.image "out") = true := by decide +kernel
  obtain ⟨g, built, facts⟩ := exists_ok_of_any facts
  obtain ⟨edges, found, facts⟩ := exists_ok_of_any facts
  obtain ⟨frontiers, areFrontiers, facts⟩ := exists_ok_of_any facts
  obtain ⟨changed, root, dead, live, back, behind, fromDead⟩ := of_decide_eq_true facts
  obtain ⟨_, same, keys, atEntry⟩ :=
    dominanceFrontiers_end_dominance circling true g _ built [{}] rfl edges found
  cases areFrontiers.symm.trans same
  obtain ⟨members, entryOutside⟩ := atEntry "bb1" root
  exact ⟨g, _, edges, frontiers, built, rfl, changed, found, areFrontiers,
    fun key => dead ((keys _).mp key), back, behind, fromDead,
    ((members "loop" live "out").mp behind).2, ((members "loop" live "loop").mp back).1,
    entryOutside⟩

end SsaForm.FlowGraph
