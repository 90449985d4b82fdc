import SsaForm.Conversion
import SsaForm.Proofs.FlowGraph.Dominance
import SsaForm.Proofs.Renaming.Shape

/-!
# Conversion keeps graphs well-formed

A conversion renames blocks in place and puts merges in front of them; a fault leaves the
blocks as far as they have been renamed. Either way the blocks have the same names in the
same order, each of them ends as before, and the index is not touched. So a graph stays
well-formed however often it is converted, and the index stays exact.
-/

namespace SsaForm

theorem Instr.isTerminator_iff {i : Instr} :
    i.isTerminator = true ↔ i.op ∈ ["br", "jmp", "ret"] := by
  unfold Instr.isTerminator Instr.terminator? Terminator.ofName?
  grind

theorem Instr.isTerminator_of_isPhi {i : Instr} (isPhi : i.isPhi = true) :
    i.isTerminator = false := by
  have op : i.op = "phi" := of_decide_eq_true isPhi
  unfold Instr.isTerminator Instr.terminator?
  rw [op]
  decide

/-- The block with instructions put in front of its own. -/
def Block.headed (heads : String → List Instr) (b : Block) : Block :=
  { b with instrs := heads b.name ++ b.instrs }

theorem Block.Ended.headed {b : Block} (ended : b.Ended) {heads : String → List Instr}
    (inner : ∀ i ∈ heads b.name, i.isTerminator = false) : (b.headed heads).Ended := by
  obtain ⟨body, last, whole, ends, plain⟩ := ended
  refine ⟨heads b.name ++ body, last, by simp [Block.headed, whole], ends, ?_⟩
  intro i member
  rcases List.mem_append.mp member with front | own
  · exact inner i front
  · exact plain i own

theorem Block.Ended.targets_headed {b : Block} (ended : b.Ended)
    (heads : String → List Instr) : (b.headed heads).targets = b.targets := by
  obtain ⟨body, last, whole, _⟩ := ended
  simp [Block.targets, Block.last?, Block.headed, whole]

namespace FlowGraph

variable {g h : FlowGraph}

section Preservation

/-- Well-formedness depends on the names of the blocks, their index and how they end. -/
theorem WellFormed.congr (wellFormed : g.WellFormed) (names : h.names = g.names)
    (index : h.index = g.index)
    (blocks : ∀ c ∈ h.blocks, ∃ b ∈ g.blocks, b.Ended → c.Ended ∧ c.targets = b.targets) :
    h.WellFormed := by
  have ends : ∀ c ∈ h.blocks, c.Ended ∧ ∃ b ∈ g.blocks, c.targets = b.targets := by
    intro c found
    obtain ⟨b, inside, same⟩ := blocks c found
    obtain ⟨ended, targets⟩ := same (wellFormed.ended b inside)
    exact ⟨ended, b, inside, targets⟩
  refine ⟨wellFormed.indexed.congr names index, fun c found => (ends c found).1, ?_⟩
  intro c found name root
  obtain ⟨_, b, inside, targets⟩ := ends c found
  rw [targets]
  apply wellFormed.unentered b inside name
  rwa [ entry?, names] at root

theorem names_eq_of_shape (same : h.blocks.map Block.shape = g.blocks.map Block.shape) :
    h.names = g.names := by
  have names := congrArg (List.map Block.name) same
  simpa [Function.comp_def, FlowGraph.names] using names

theorem WellFormed.of_shape (wellFormed : g.WellFormed) (index : h.index = g.index)
    (same : h.blocks.map Block.shape = g.blocks.map Block.shape) : h.WellFormed := by
  apply wellFormed.congr (names_eq_of_shape same) index
  intro c found
  obtain ⟨b, inside, equal⟩ : ∃ b ∈ g.blocks, b.shape = c.shape := by
    rw [← List.mem_map, ← same]
    exact List.mem_map_of_mem found
  refine ⟨b, inside, fun ended => ⟨?_, ?_⟩⟩
  · apply Block.ended_shape.mp
    rw [← equal]
    exact Block.ended_shape.mpr ended
  · rw [← c.targets_shape, ← equal, b.targets_shape]

theorem WellFormed.headed (wellFormed : g.WellFormed) {heads : String → List Instr}
    (inner : ∀ name, ∀ i ∈ heads name, i.isTerminator = false) :
    ({ g with blocks := g.blocks.map (Block.headed heads) } : FlowGraph).WellFormed := by
  refine wellFormed.congr ?_ rfl ?_
  · simp [FlowGraph.names, Function.comp_def, Block.headed]
  · intro c found
    obtain ⟨b, inside, rfl⟩ := List.mem_map.mp found
    exact ⟨b, inside, fun ended => ⟨ended.headed (inner b.name), ended.targets_headed heads⟩⟩

/-- What a conversion can do to a graph, also when it ends with a fault: it replaces the
blocks by others of the same shapes, and puts merges in front of them. -/
theorem exists_convert_eq (g : FlowGraph) (config : Config) :
    ∃ (renamed : List Block) (heads : String → List Instr),
      renamed.map Block.shape = g.blocks.map Block.shape ∧
      (∀ name, ∀ i ∈ heads name, i.isPhi = true) ∧
      (g.convert config).graph = { g with blocks := renamed.map (Block.headed heads) } := by
  have bare : ∀ blocks : List Block, blocks.map (Block.headed fun _ => []) = blocks := fun blocks =>
    (List.map_congr_left fun _ _ => rfl).trans (List.map_id blocks)
  have noHeads : ∀ (name : String), ∀ i ∈ (fun _ => [] : String → List Instr) name,
      i.isPhi = true := fun _ _ member => absurd member List.not_mem_nil
  unfold convert
  split
  next => exact ⟨g.blocks, fun _ => [], rfl, noHeads, by rw [bare]⟩
  next entry root =>
    split
    next => exact ⟨g.blocks, fun _ => [], rfl, noHeads, by rw [bare]⟩
    next edges found =>
      have kept := map_shape_rename config (g.survey edges).phis (g.survey edges).successors
        (g.survey edges).tree entry (g.params.map Param.name) g.blocks
      dsimp only
      split
      next => exact ⟨_, fun _ => [], kept, noHeads, by rw [bare]⟩
      next tables _ =>
        refine ⟨_, Phi.instrs tables g.declaredTypes, kept, ?_, rfl⟩
        intro name i member
        obtain ⟨pair, _, rfl⟩ := List.mem_map.mp member
        rfl

theorem wellFormed_convert (wellFormed : g.WellFormed) (config : Config) :
    (g.convert config).graph.WellFormed := by
  obtain ⟨renamed, heads, same, phis, graph⟩ := g.exists_convert_eq config
  have shaped : ({ g with blocks := renamed } : FlowGraph).WellFormed :=
    wellFormed.of_shape rfl same
  rw [graph]
  exact shaped.headed fun name i member => Instr.isTerminator_of_isPhi (phis name i member)

theorem names_convert (g : FlowGraph) (config : Config) :
    (g.convert config).graph.names = g.names := by
  obtain ⟨renamed, heads, same, _, graph⟩ := g.exists_convert_eq config
  have names : ({ g with blocks := renamed } : FlowGraph).names = g.names := names_eq_of_shape same
  rw [graph, ← names]
  simp [FlowGraph.names, Function.comp_def, Block.headed]

theorem index_convert (g : FlowGraph) (config : Config) :
    (g.convert config).graph.index = g.index := by
  obtain ⟨_, _, _, _, graph⟩ := g.exists_convert_eq config
  rw [graph]

end Preservation

/-- What is left of a graph behind a number of conversions, whether or not they succeed. -/
def convertAll (g : FlowGraph) (configs : List Config) : FlowGraph :=
  configs.foldl (fun current config => (current.convert config).graph) g

theorem wellFormed_convertAll (wellFormed : g.WellFormed) (configs : List Config) :
    (g.convertAll configs).WellFormed := by
  induction configs generalizing g with
  | nil => exact wellFormed
  | cons config rest inductionHypothesis =>
    exact inductionHypothesis (wellFormed_convert wellFormed config)

theorem index_convertAll (g : FlowGraph) (configs : List Config) :
    (g.convertAll configs).index = g.index := by
  induction configs generalizing g with
  | nil => rfl
  | cons config rest inductionHypothesis =>
    exact (inductionHypothesis _).trans (index_convert g config)

/-- A graph that is built from a function and converted any number of times, successfully or
not, keeps its invariant. Block names are different. The index holds exactly the names of the
blocks, each with its position, and it is the one that construction has left. Every block ends
with a terminator, its only one. And no block goes on at the first one. -/
theorem convertAll_invariant (f : Function) (checkLabels : Bool) (g : FlowGraph)
    (built : ofFunction f checkLabels = .ok g) (configs : List Config) :
    (g.convertAll configs).names.Nodup ∧
    (∀ (name : String) (position : Nat), (g.convertAll configs).index[name]? = some position ↔
      (g.convertAll configs).names[position]? = some name) ∧
    (g.convertAll configs).index = g.index ∧
    (∀ b ∈ (g.convertAll configs).blocks, ∃ body last, b.instrs = body ++ [last] ∧
      last.op ∈ ["br", "jmp", "ret"] ∧ ∀ i ∈ body, i.op ∉ ["br", "jmp", "ret"]) ∧
    ∀ b ∈ (g.convertAll configs).blocks, ∀ first,
      FlowGraph.entry? (g.convertAll configs) = some first → first ∉ b.targets := by
  have wellFormed := wellFormed_convertAll (wellFormed_ofFunction built) configs
  refine ⟨wellFormed.distinct, wellFormed.indexed, index_convertAll g configs, ?_,
    wellFormed.unentered⟩
  intro b inside
  obtain ⟨body, last, whole, ends, plain⟩ := wellFormed.ended b inside
  refine ⟨body, last, whole, Instr.isTerminator_iff.mp ends, ?_⟩
  intro i member isLast
  simpa [plain i member] using Instr.isTerminator_iff.mpr isLast

/-- A loop at the first label, and a use that one of two branches leaves without a value. -/
def stumbling : Function where
  name := "main"
  params := [⟨"y", .primitive "int"⟩, ⟨"c", .primitive "bool"⟩]
  body := [
    .label "top",
    .instr (.assign "add" "y" (.primitive "int") ["y", "y"]),
    .instr (.br "c" "top" "next"),
    .label "next",
    .instr (.br "c" "left" "join"),
    .label "left",
    .instr (.constant "x" (.primitive "int") (.int 1)),
    .label "join",
    .instr (.effect "print" ["x", "y"])]

/-- The first conversion is refused when it has renamed some blocks; the second one starts from
what it has left and succeeds. -/
theorem convertAll_invariant_stumbling :
    ∃ g, ofFunction stumbling true = .ok g ∧ g.entry? = some "entry1" ∧
      (g.convert .strict).fault? = some (.unassigned "x" "next") ∧
      (g.convert .strict).graph ≠ g ∧ ((g.convert .strict).graph.convert {}).fault? = none ∧
      (g.convertAll [.strict, {}]).names.Nodup ∧
      (g.convertAll [.strict, {}]).index["join"]? = some 4 ∧
      (g.convertAll [.strict, {}]).index = g.index ∧
      ∀ b ∈ (g.convertAll [.strict, {}]).blocks, "entry1" ∉ b.targets := by
  have facts : (ofFunction stumbling true).toOption.any (fun g =>
      g.entry? = some "entry1" ∧ (g.convert .strict).fault? = some (.unassigned "x" "next") ∧
      (g.convert .strict).graph ≠ g ∧ ((g.convert .strict).graph.convert {}).fault? = none ∧
      (g.convertAll [.strict, {}]).names[4]? = some "join" ∧
      FlowGraph.entry? (g.convertAll [.strict, {}]) = some "entry1") = true := by decide +kernel
  obtain ⟨g, built, facts⟩ := exists_ok_of_any facts
  obtain ⟨root, refused, changed, succeeded, fifth, first⟩ := of_decide_eq_true facts
  obtain ⟨distinct, indexed, index, _, unentered⟩ :=
    convertAll_invariant stumbling true g built [.strict, {}]
  exact ⟨g, built, root, refused, changed, succeeded, distinct, (indexed "join" 4).mpr fifth, index,
    fun b inside => unentered b inside "entry1" first⟩

end FlowGraph

end SsaForm
