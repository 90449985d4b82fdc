import SsaForm.FlowGraph.Dot
import SsaForm.Proofs.FlowGraph.Dominance

/-!
# Edges and successors

The successors of a block are all labels of the branch or jump at its end. Its edges also tell
how control takes them, and a condition only decides between two labels. So every edge leads to
a successor, and the successors without an edge are found among the labels of a branch behind
its first two.
-/

namespace SsaForm

/-- The labels of a branch behind the two that its condition decides between. -/
def Instr.surplus (i : Instr) : List String :=
  if i.terminator? = some .br then i.labels.drop 2 else []

/-- The labels at which control may go on are those of the edges and the surplus, in order. -/
theorem Instr.targets_eq_append (i : Instr) : i.targets = i.edges.map Edge.target ++ i.surplus := by
  rw [targets, edges, surplus]
  cases ends : i.terminator? with
  | none => rfl
  | some terminator =>
    cases terminator with
    | ret => rfl
    | jmp => simp [Function.comp_def]
    | br => rcases i.labels with _ | ⟨first, _ | ⟨second, rest⟩⟩ <;> simp

namespace Block

/-- The labels that the last instruction has in surplus. -/
def surplus (b : Block) : List String :=
  (b.last?.map Instr.surplus).getD []

theorem targets_eq_append (b : Block) : b.targets = b.edges.map Edge.target ++ b.surplus := by
  rw [targets, edges, surplus]
  cases b.last? with
  | none => rfl
  | some i => exact i.targets_eq_append

/-- The edges lead to all successors if and only if every label in surplus is that of an edge. -/
theorem successors_eq_ofList_iff (b : Block) :
    b.successors = .ofList (b.edges.map Edge.target) ↔
      ∀ label ∈ b.surplus, ∃ e ∈ b.edges, e.target = label := by
  rw [successors, targets_eq_append]
  constructor
  · intro same label extra
    have member : label ∈ (.ofList (b.edges.map Edge.target) : KeySet String) := by
      rw [← same, KeySet.mem_ofList]
      exact List.mem_append_right _ extra
    exact List.mem_map.mp (KeySet.mem_ofList.mp member)
  · intro covered
    apply Std.ExtTreeSet.ext_mem
    intro label
    rw [KeySet.mem_ofList, KeySet.mem_ofList, List.mem_append]
    refine or_iff_left_of_imp ?_
    exact fun extra => List.mem_map.mpr (covered label extra)

end Block

namespace FlowGraph

theorem WellFormed.outgoing_eq {g : FlowGraph} (wellFormed : g.WellFormed) {b : Block}
    (inside : b ∈ g.blocks) : g.outgoing b.name = b.edges := by
  rw [outgoing, wellFormed.block?_eq_some.mpr ⟨inside, rfl⟩]
  rfl

theorem WellFormed.successorSet?_eq {g : FlowGraph} (wellFormed : g.WellFormed) {b : Block}
    (inside : b ∈ g.blocks) : g.successorSet? b.name = some b.successors := by
  rw [successorSet?, wellFormed.block?_eq_some.mpr ⟨inside, rfl⟩]
  rfl

/-- The arrows of a block stand together in the drawing. -/
theorem exists_dotPieces_eq {g : FlowGraph} {b : Block} (inside : b ∈ g.blocks)
    (highlight : KeySet String) (current : Option String) :
    ∃ front back, g.dotPieces highlight current =
      front ++ (g.outgoing b.name).flatMap (dotEdge b.name) ++ back := by
  obtain ⟨before, after, split⟩ := List.append_of_mem inside
  have arrows : (g.blocks.flatMap fun b => (g.outgoing b.name).flatMap (dotEdge b.name)) =
      (before.flatMap fun b => (g.outgoing b.name).flatMap (dotEdge b.name)) ++
        ((g.outgoing b.name).flatMap (dotEdge b.name) ++
          after.flatMap fun b => (g.outgoing b.name).flatMap (dotEdge b.name)) := by
    rw [split, List.flatMap_append, List.flatMap_cons]
  rw [dotPieces, arrows]
  simp only [← List.append_assoc]
  exact ⟨_, _, List.append_assoc _ _ _⟩

/-- What the edges of a block say about its successors. In every graph that is built, the
successors of a block are the targets of its edges, which are the edges that are drawn, and the
labels that a branch at its end has behind the first two. So the edges lead to all successors
if and only if each of those labels is one of the first two. -/
theorem successors_have_edges_iff (f : Function) (checkLabels : Bool) (g : FlowGraph)
    (built : ofFunction f checkLabels = .ok g) (b : Block) (inside : b ∈ g.blocks) :
    (∃ successors, g.successorSet? b.name = some successors ∧ ∀ target, target ∈ successors ↔
      (∃ e ∈ g.outgoing b.name, e.target = target) ∨ target ∈ b.surplus) ∧
    (g.successorSet? b.name = some (.ofList ((g.outgoing b.name).map Edge.target)) ↔
      ∀ label ∈ b.surplus, ∃ e ∈ g.outgoing b.name, e.target = label) ∧
    ∀ highlight current, ∃ front back, g.dotPieces highlight current =
      front ++ (g.outgoing b.name).flatMap (dotEdge b.name) ++ back := by
  have wellFormed := wellFormed_ofFunction built
  refine ⟨?_, ?_, exists_dotPieces_eq inside⟩
  · refine ⟨b.successors, wellFormed.successorSet?_eq inside, ?_⟩
    intro target
    rw [wellFormed.outgoing_eq inside, Block.successors, KeySet.mem_ofList,
      b.targets_eq_append, List.mem_append, List.mem_map]
  · rw [wellFormed.successorSet?_eq inside, wellFormed.outgoing_eq inside, Option.some.injEq]
    exact b.successors_eq_ofList_iff

/-- A branch to three blocks, a jump to two of them, and a branch that has a label in surplus
that is one of its first two. -/
def fanning : Function where
  name := "main"
  params := [⟨"c", .primitive "bool"⟩]
  body := [
    .instr { Instr.br "c" "left" "right" with labels := ["left", "right", "other"] },
    .label "left",
    .instr { Instr.jmp "right" with labels := ["right", "other"] },
    .label "right",
    .instr { Instr.br "c" "left" "other" with labels := ["left", "other", "left"] },
    .label "other",
    .instr (.ret [])]

/-- The jump and the branch with a repeated label have edges to all successors, the branch to
three blocks has not. -/
theorem successors_have_edges_iff_fanning :
    ∃ g left right first, ofFunction fanning true = .ok g ∧
      (left ∈ g.blocks ∧ right ∈ g.blocks ∧ first ∈ g.blocks) ∧
      g.successorSet? left.name = some (.ofList ((g.outgoing left.name).map Edge.target)) ∧
      g.successorSet? right.name = some (.ofList ((g.outgoing right.name).map Edge.target)) ∧
      g.successorSet? first.name ≠ some (.ofList ((g.outgoing first.name).map Edge.target)) := by
  have facts : (ofFunction fanning true).toOption.any (fun g =>
      (∃ b ∈ g.blocks, b.name = "left" ∧
        ∀ label ∈ b.surplus, ∃ e ∈ g.outgoing b.name, e.target = label) ∧
      (∃ b ∈ g.blocks, b.name = "right" ∧ b.surplus = ["left"] ∧
        ∀ label ∈ b.surplus, ∃ e ∈ g.outgoing b.name, e.target = label) ∧
      ∃ b ∈ g.blocks, b.name = "bb1" ∧
        ¬ ∀ label ∈ b.surplus, ∃ e ∈ g.outgoing b.name, e.target = label) = true := by
    decide +kernel
  obtain ⟨g, built, facts⟩ := exists_ok_of_any facts
  obtain ⟨⟨left, leftInside, _, leftCovered⟩, ⟨right, rightInside, _, _, rightCovered⟩,
    first, firstInside, _, uncovered⟩ := of_decide_eq_true facts
  have exactly : ∀ b ∈ g.blocks,
      (g.successorSet? b.name = some (.ofList ((g.outgoing b.name).map Edge.target)) ↔
        ∀ label ∈ b.surplus, ∃ e ∈ g.outgoing b.name, e.target = label) := fun b inside =>
    (successors_have_edges_iff fanning true g built b inside).2.1
  exact ⟨g, left, right, first, built, ⟨leftInside, rightInside, firstInside⟩,
    (exactly left leftInside).mpr leftCovered, (exactly right rightInside).mpr rightCovered,
    fun same => uncovered ((exactly first firstInside).mp same)⟩

/-- The third block is a successor of the entry and no edge of the entry leads to it. -/
theorem fanning_undrawn :
    ∃ g successors, ofFunction fanning true = .ok g ∧ "bb1" ∈ g.names ∧
      g.successorSet? "bb1" = some successors ∧ "other" ∈ successors ∧
      successors ≠ .ofList ((g.outgoing "bb1").map Edge.target) := by
  have facts : (ofFunction fanning true).toOption.any (fun g => "bb1" ∈ g.names ∧
      (g.successorSet? "bb1").any (fun successors => "other" ∈ successors) ∧
      "other" ∉ (g.outgoing "bb1").map Edge.target) = true := by decide +kernel
  obtain ⟨g, built, facts⟩ := exists_ok_of_any facts
  obtain ⟨named, followed, undrawn⟩ := of_decide_eq_true facts
  obtain ⟨successors, found, member⟩ := (Option.any_eq_true _ _).mp followed
  refine ⟨g, successors, built, named, found, of_decide_eq_true member, ?_⟩
  rintro rfl
  exact undrawn (KeySet.mem_ofList.mp (of_decide_eq_true member))

end FlowGraph

end SsaForm
