import SsaForm.Proofs.Conversion.Invariant
import SsaForm.Proofs.Conversion.Operands
import SsaForm.Proofs.Renaming.Stopping

/-!
# What a conversion leaves alone

A conversion writes variables and puts merges at the heads of blocks, whether or not it gets
to its end. Signature, names and places of the blocks stay, and so does everything about an
instruction but its variables; where control goes is the same as before, and with it all that
is computed from the edges. A fault on the way leaves the blocks behind it in preorder as they
were.
-/

namespace SsaForm

/-- The instruction with other variables: a version in the place of its destination, and each
argument kept or replaced by a version of it. -/
structure Instr.RenamesTo (i renamed : Instr) : Prop where
  kept : renamed = { i with dest := renamed.dest, args := renamed.args }
  dest : Option.Rel (fun var version => ∃ number, version = versionName var number) i.dest
    renamed.dest
  args : List.Forall₂ (fun name new => new = name ∨ ∃ number, new = versionName name number)
    i.args renamed.args

theorem Instr.not_renamesTo_self {i : Instr} {var : String} (assigns : i.dest = some var) :
    ¬ i.RenamesTo i := by
  intro renames
  have versions := renames.dest
  rw [assigns] at versions
  cases versions with
  | some numbered =>
    obtain ⟨number, equal⟩ := numbered
    exact versionName_ne_self var number equal.symm

namespace FlowGraph

open Renaming

section Outline

/-- What the analyses of a graph read: the names of its blocks and where control goes. -/
def outline (g : FlowGraph) : List (String × List String) :=
  g.blocks.map fun b => (b.name, b.targets)

variable {g h : FlowGraph}

theorem map_fst_outline (g : FlowGraph) : g.outline.map Prod.fst = g.names := by
  simp [outline, names]

theorem links_eq_outline (g : FlowGraph) :
    g.links = g.outline.flatMap fun pair => pair.2.map fun target => (pair.1, target) := by
  rw [links, outline, List.flatMap_map]

/-- Graphs with one outline have the same analyses. -/
theorem analyses_congr (same : h.outline = g.outline) :
    h.edges = g.edges ∧ h.reachable = g.reachable ∧ h.dominators = g.dominators ∧
      h.dominanceFrontiers = g.dominanceFrontiers ∧ h.dominatorTree = g.dominatorTree := by
  have names : h.names = g.names := by rw [← map_fst_outline, ← map_fst_outline, same]
  have root : h.entry? = g.entry? := by rw [ entry?, entry?, names]
  have edges : h.edges = g.edges := by
    rw [FlowGraph.edges, FlowGraph.edges, links_eq_outline, links_eq_outline, same, names]
  have live : h.liveBlocks = g.liveBlocks := by
    funext edges
    rw [liveBlocks, liveBlocks, root]
  have solved : h.solveDominance = g.solveDominance := by
    funext edges
    rw [solveDominance, solveDominance, root, names]
  have dominators : h.liveDominators = g.liveDominators := by
    funext edges
    rw [liveDominators, liveDominators, live, solved]
  have successors : h.liveSuccessors = g.liveSuccessors := by
    funext edges
    rw [liveSuccessors, liveSuccessors, live]
  simp only [reachable, FlowGraph.dominators, dominanceFrontiers, dominatorTree, edges, live, solved,
    dominators, successors, and_self]

theorem outline_of_shape (same : h.blocks.map Block.shape = g.blocks.map Block.shape) :
    h.outline = g.outline := by
  have outlines := congrArg (List.map fun b : Block => (b.name, b.targets)) same
  simpa [outline, Function.comp_def] using outlines

theorem WellFormed.outline_headed (wellFormed : g.WellFormed) (heads : String → List Instr) :
    ({ g with blocks := g.blocks.map (Block.headed heads) } : FlowGraph).outline = g.outline := by
  rw [outline, outline, List.map_map]
  apply List.map_congr_left
  intro b inside
  exact congrArg (Prod.mk b.name) ((wellFormed.ended b inside).targets_headed heads)

theorem WellFormed.outline_convert (wellFormed : g.WellFormed) (config : Config) :
    (g.convert config).graph.outline = g.outline := by
  obtain ⟨renamed, heads, same, _, graph⟩ := g.exists_convert_eq config
  have shaped : ({ g with blocks := renamed } : FlowGraph).WellFormed :=
    wellFormed.of_shape rfl same
  rw [graph, shaped.outline_headed]
  exact outline_of_shape same

end Outline

section Renamed

variable {g : FlowGraph} {scope : Versions}

theorem Grounded.scopeInvariant (g : FlowGraph) : ScopeInvariant g.Grounded where
  extend vars grounded := grounded.extend vars
  congr same grounded := grounded.congr fun var => by rw [Versions.stack, same, ← Versions.stack]

theorem Grounded.resolve_eq (grounded : g.Grounded scope) (name : String) :
    scope.resolve name = name ∨ ∃ number, scope.resolve name = versionName name number := by
  by_cases same : scope.resolve name = name
  · exact .inl same
  · rcases grounded.named name _ (Versions.resolve_mem_stack same) with ⟨kept, _⟩ | numbered
    · exact .inl kept
    · exact .inr numbered

theorem Grounded.renamesTo (grounded : g.Grounded scope) (i : Instr) :
    i.RenamesTo (scope.renameInstr i).1 := by
  rw [Versions.renameInstr_eq]
  refine ⟨rfl, ?_, ?_⟩
  · cases i.dest with
    | none => exact .none
    | some var => exact .some ⟨scope.counter var, rfl⟩
  · rw [List.forall₂_map_right_iff, List.forall₂_same]
    exact fun name _ => grounded.resolve_eq name

theorem Grounded.forall₂_renamesTo (grounded : g.Grounded scope) (instrs : List Instr) :
    List.Forall₂ Instr.RenamesTo instrs (scope.renameInstrs instrs).1 := by
  induction instrs generalizing scope with
  | nil => exact .nil
  | cons i rest inductionHypothesis =>
    have behind : g.Grounded (scope.renameInstr i).2 := by
      rw [Versions.renameInstr_scope]
      exact grounded.extend _
    exact .cons (grounded.renamesTo i) (inductionHypothesis behind)

theorem Grounded.site_renamesTo {site : Site} (grounded : g.Grounded site.scope) :
    List.Forall₂ Instr.RenamesTo site.block.instrs site.instrs :=
  (grounded.extend site.merged).forall₂_renamesTo site.block.instrs

end Renamed

section Outcomes

variable {g : FlowGraph} {config : Config} {entry : String}

/-- A conversion that is refused in the middle has visited the first live blocks in preorder,
the last of them being the one that the fault names. -/
theorem Rooted.stops (rooted : g.Rooted entry) {fault : Fault}
    (failed : (g.convert config).fault? = some fault) :
    ∃ (passed : List Site) (last : Site) (rest : List String) (var : String),
      fault = .unassigned var last.name ∧
      (VisitTree.unfold g.surveyed.tree entry).names = (passed ++ [last]).map Site.name ++ rest ∧
      (∀ site ∈ passed ++ [last], site.block ∈ g.blocks ∧ g.Grounded site.scope) ∧
      (g.convert config).graph =
        { g with blocks := g.blocks.map (settled (passed ++ [last])) } := by
  rcases rooted.convert_cases with ⟨_, _, succeeded, _⟩ | ⟨stop, stopped, refused, graph⟩
  · cases succeeded.symm.trans failed
  · cases refused.symm.trans failed
    obtain ⟨visited, rest, names, sound, leaves⟩ :=
      visitTree_leaves rooted.distinct (Grounded.scopeInvariant g) (.unfold g.surveyed.tree entry)
        (reflects_start (g.plan config) g.blocks g.paramScope) rooted.nodup_start
        rooted.mem_names_of_unfold (Grounded.paramScope g)
    rw [List.nil_append, ← conversionWalk, stopped] at leaves
    cases leaves with
    | @stopped passed last _ _ var whole renamed named =>
      subst whole
      exact ⟨passed, last, rest, var, named, names, sound, by rw [graph, renamed]⟩

theorem signature_convert (g : FlowGraph) (config : Config) :
    (g.convert config).graph.name = g.name ∧ (g.convert config).graph.params = g.params ∧
      (g.convert config).graph.result = g.result := by
  obtain ⟨renamed, heads, _, _, graph⟩ := g.exists_convert_eq config
  rw [graph]
  exact ⟨rfl, rfl, rfl⟩

/-- A graph without an entry or with a dangling edge is left as it is. -/
theorem WellFormed.rooted_or_unconverted (wellFormed : g.WellFormed) (config : Config) :
    (∃ entry, g.Rooted entry) ∨ (g.convert config).graph = g ∧
      (g.blocks = [] ∧ (g.convert config).fault? = none ∨
        ∃ block target, (g.convert config).fault? = some (.danglingEdge block target)) := by
  cases root : g.entry? with
  | none => exact .inr (by simp [convert, root, entry?_eq_none.mp root])
  | some entry =>
    cases dangling : g.dangling? with
    | none => exact .inl ⟨entry, { wellFormed with root, resolved := dangling }⟩
    | some pair =>
      have refused := wellFormed.indexed.edges_of_dangling dangling
      exact .inr (by simp [convert, root, refused])

variable (wellFormed : g.WellFormed)

include wellFormed

theorem WellFormed.dead_unchanged {b : Block} (inside : b ∈ g.blocks) (dead : ¬ g.Live b.name) :
    (g.convert config).graph.block? b.name = some b := by
  rcases wellFormed.rooted_or_unconverted config with ⟨entry, rooted⟩ | ⟨same, _⟩
  · rw [rooted.live_iff] at dead
    cases outcome : (g.convert config).fault? with
    | none =>
      obtain ⟨sites, converts, graph⟩ := rooted.converts outcome
      rw [graph, converts.block?_finished inside, converts.finished_of_unreached dead]
    | some fault =>
      obtain ⟨passed, last, rest, _, _, names, _, graph⟩ := rooted.stops outcome
      have unvisited : b.name ∉ (passed ++ [last]).map Site.name := by
        intro visited
        apply dead
        rw [← rooted.names_unfold.1, names]
        exact List.mem_append_left rest visited
      rw [graph, wellFormed.block?_map_of_mem _ inside, settled_of_not_mem unvisited]
  · rw [same]
    exact wellFormed.block?_eq_some.mpr ⟨inside, rfl⟩

theorem WellFormed.renamed_of_success (succeeded : (g.convert config).fault? = none) {b : Block}
    (inside : b ∈ g.blocks) (live : g.Live b.name) :
    ∃ merges renamed,
      (g.convert config).graph.block? b.name = some ⟨b.name, merges ++ renamed⟩ ∧
      g.MergesAscending b.name merges ∧ List.Forall₂ Instr.RenamesTo b.instrs renamed := by
  obtain ⟨entry, root, reached⟩ := live
  obtain ⟨sites, converts, graph⟩ := (wellFormed.rooted_of_convert root succeeded).converts succeeded
  obtain ⟨site, member, rfl⟩ := converts.exists_site_of_block inside reached
  refine ⟨g.mergesAt config sites site, site.instrs, ?_, converts.mergesAscending member,
    (converts.grounded member).site_renamesTo⟩
  rw [graph, converts.block?_finished inside, converts.finished_of_site member]

/-- A conversion that is refused has renamed the live blocks in preorder up to the one that the
fault names, and no other. -/
theorem WellFormed.renamed_of_stop {var block : String}
    (refused : (g.convert config).fault? = some (.unassigned var block)) :
    ∃ passed rest, g.LivePreorder (passed ++ block :: rest) ∧ ∀ b ∈ g.blocks,
      (b.name ∈ passed ++ [block] → ∃ renamed,
        (g.convert config).graph.block? b.name = some ⟨b.name, renamed⟩ ∧
        List.Forall₂ Instr.RenamesTo b.instrs renamed) ∧
      (b.name ∉ passed ++ [block] → (g.convert config).graph.block? b.name = some b) := by
  rcases wellFormed.rooted_or_unconverted config with
    ⟨entry, rooted⟩ | ⟨_, ⟨_, succeeded⟩ | ⟨_, _, dangling⟩⟩
  · obtain ⟨passed, last, rest, _, fault, names, sound, graph⟩ := rooted.stops refused
    cases fault
    have order := rooted.livePreorder
    have once := rooted.names_unfold.2
    rw [names] at order once
    have visited : (passed ++ [last]).map Site.name = passed.map Site.name ++ [last.name] :=
      List.map_append
    refine ⟨passed.map Site.name, rest, by simpa using order, ?_⟩
    intro b inside
    rw [graph, wellFormed.block?_map_of_mem _ inside, ← visited]
    constructor
    · intro listed
      obtain ⟨site, member, named⟩ := List.mem_map.mp listed
      obtain ⟨original, grounded⟩ := sound site member
      obtain rfl := wellFormed.eq_of_name original inside named
      rw [settled_of_site (List.nodup_append.mp once).1 member]
      exact ⟨site.instrs, rfl, grounded.site_renamesTo⟩
    · intro unlisted
      rw [settled_of_not_mem unlisted]
  · cases succeeded.symm.trans refused
  · cases dangling.symm.trans refused

theorem WellFormed.unchanged_of_other_fault {fault : Fault}
    (failed : (g.convert config).fault? = some fault)
    (other : ∀ var block, fault ≠ .unassigned var block) : (g.convert config).graph = g := by
  rcases wellFormed.rooted_or_unconverted config with ⟨entry, rooted⟩ | ⟨same, _⟩
  · obtain ⟨_, last, _, var, named, _⟩ := rooted.stops failed
    exact absurd named (other var last.name)
  · exact same

end Outcomes

/-- A conversion changes only variables and the heads of blocks, whether it succeeds or not.
The signature and the names of the blocks stay in their places, and a dead block is as it was.
Behind a success every live block consists of its merges and of as many instructions as
before, which differ in their variables only: each destination is a version of the old one,
and each argument is kept or a version of the old one. If the conversion is refused, this
holds without the merges of the live blocks in preorder up to the one that the fault names,
and the other blocks are as they were. Any other fault leaves the whole graph alone. In all
cases the analyses come to the same results before and behind the conversion. -/
theorem conversion_frame (f : Function) (checkLabels : Bool) (g : FlowGraph) (config : Config)
    (built : ofFunction f checkLabels = .ok g) :
    let after := (g.convert config).graph
    (after.name = g.name ∧ after.params = g.params ∧ after.result = g.result ∧
      after.names = g.names) ∧
    (∀ b ∈ g.blocks, ¬ g.Live b.name → after.block? b.name = some b) ∧
    ((g.convert config).fault? = none → ∀ b ∈ g.blocks, g.Live b.name →
      ∃ merges renamed, after.block? b.name = some ⟨b.name, merges ++ renamed⟩ ∧
        g.MergesAscending b.name merges ∧ List.Forall₂ Instr.RenamesTo b.instrs renamed) ∧
    (∀ var block, (g.convert config).fault? = some (.unassigned var block) →
      ∃ passed rest, g.LivePreorder (passed ++ block :: rest) ∧ ∀ b ∈ g.blocks,
        (b.name ∈ passed ++ [block] → ∃ renamed, after.block? b.name = some ⟨b.name, renamed⟩ ∧
          List.Forall₂ Instr.RenamesTo b.instrs renamed) ∧
        (b.name ∉ passed ++ [block] → after.block? b.name = some b)) ∧
    (∀ fault, (g.convert config).fault? = some fault →
      (∀ var block, fault ≠ .unassigned var block) → after = g) ∧
    after.edges = g.edges ∧ after.reachable = g.reachable ∧ after.dominators = g.dominators ∧
      after.dominanceFrontiers = g.dominanceFrontiers ∧ after.dominatorTree = g.dominatorTree := by
  have wellFormed := wellFormed_ofFunction built
  intro after
  refine ⟨?_, fun _ => wellFormed.dead_unchanged,
    fun succeeded _ => wellFormed.renamed_of_success succeeded,
    fun _ _ => wellFormed.renamed_of_stop, fun _ => wellFormed.unchanged_of_other_fault,
    analyses_congr (wellFormed.outline_convert config)⟩
  obtain ⟨name, params, result⟩ := signature_convert g config
  exact ⟨name, params, result, names_convert g config⟩

/-- The conversion is refused in its third block and has renamed the second one. -/
theorem conversion_frame_stumbling :
    ∃ g, ofFunction stumbling true = .ok g ∧
      (g.convert .strict).fault? = some (.unassigned "x" "next") ∧
      (g.convert .strict).graph.edges = g.edges ∧
      ∃ passed rest, g.LivePreorder (passed ++ "next" :: rest) ∧ "top" ∈ passed ++ ["next"] ∧
        ∃ b ∈ g.blocks, b.name = "top" ∧ ∃ renamed,
          (g.convert .strict).graph.block? "top" = some ⟨"top", renamed⟩ ∧
          List.Forall₂ Instr.RenamesTo b.instrs renamed := by
  have facts : (ofFunction stumbling true).toOption.any (fun g =>
      (g.convert .strict).fault? = some (.unassigned "x" "next") ∧
      ∃ b ∈ g.blocks, b.name = "top" ∧
        (g.convert .strict).graph.block? b.name ≠ some b) = true := by decide +kernel
  obtain ⟨g, built, facts⟩ := exists_ok_of_any facts
  obtain ⟨refused, b, inside, named, changed⟩ := of_decide_eq_true facts
  obtain ⟨_, _, _, stops, _, edges, _⟩ := conversion_frame stumbling true g .strict built
  obtain ⟨passed, rest, order, blocks⟩ := stops "x" "next" refused
  have listed : b.name ∈ passed ++ ["next"] :=
    Classical.not_not.mp fun unlisted => changed ((blocks b inside).2 unlisted)
  obtain ⟨renamed, found, renames⟩ := (blocks b inside).1 listed
  rw [named] at listed found
  exact ⟨g, built, refused, edges, passed, rest, order, listed, b, inside, named, renamed, found,
    renames⟩

/-- A refused conversion may leave the destinations of a live block as they are. -/
theorem stumbling_unrenamed :
    ∃ g, ofFunction stumbling true = .ok g ∧ ∃ b ∈ g.blocks, g.Live b.name ∧
      ¬ ∃ merges renamed,
        (g.convert .strict).graph.block? b.name = some ⟨b.name, merges ++ renamed⟩ ∧
        List.Forall₂ Instr.RenamesTo b.instrs renamed := by
  have facts : (ofFunction stumbling true).toOption.any (fun g =>
      ∃ b ∈ g.blocks, g.Live b.name ∧ (∃ i ∈ b.instrs, i.dest = some "x") ∧
        (g.convert .strict).graph.block? b.name = some b) = true := by decide +kernel
  obtain ⟨g, built, facts⟩ := exists_ok_of_any facts
  obtain ⟨b, inside, live, ⟨i, listed, assigns⟩, unchanged⟩ := of_decide_eq_true facts
  refine ⟨g, built, b, inside, live, ?_⟩
  rintro ⟨merges, renamed, found, renames⟩
  rw [unchanged] at found
  -- The block is as it was, so the only way to take it apart is without merges.
  have whole : b.instrs = merges ++ renamed := congrArg Block.instrs (Option.some.inj found)
  have lengths := congrArg List.length whole
  rw [List.length_append, renames.length_eq] at lengths
  obtain rfl : merges = [] := List.eq_nil_of_length_eq_zero (by omega)
  rw [List.nil_append] at whole
  rw [← whole, List.forall₂_same] at renames
  exact Instr.not_renamesTo_self assigns (renames i listed)

end FlowGraph

end SsaForm
