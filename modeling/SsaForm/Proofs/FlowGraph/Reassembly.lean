import SsaForm.Proofs.FlowGraph.Dominance

/-!
# Reading a graph back from its body

A graph is laid out block by block, each behind its label. Every block ends with its only
terminator, so the body falls into the same blocks again: no run is left without a name, and
no block is left open. What construction may still add is an entry. It does so where some
instruction mentions the first block, which no instruction of a graph does that construction
has made itself.
-/

namespace SsaForm

namespace Run

/-- A block as it stands in a body. -/
def ofBlock (b : Block) : Run :=
  ⟨some b.name, b.instrs⟩

theorem split_instrs {body : List Instr} {last : Instr} (plain : ∀ i ∈ body, i.isTerminator = false)
    (ends : last.isTerminator = true) (rest : List Item) :
    split ((body ++ [last]).map Item.instr ++ rest) = ⟨none, body ++ [last]⟩ :: split rest := by
  induction body with
  | nil => simp [split_instr, ends]
  | cons i others inductionHypothesis =>
    obtain ⟨continues, plainRest⟩ := List.forall_mem_cons.mp plain
    rw [List.cons_append, List.map_cons, List.cons_append, split_instr,
      inductionHypothesis plainRest]
    simp [continues, takeOpen]

theorem split_label_instrs {b : Block} (ended : b.Ended) (rest : List Item) :
    split (.label b.name :: (b.instrs.map Item.instr ++ rest)) = ofBlock b :: split rest := by
  obtain ⟨body, last, whole, ends, plain⟩ := ended
  rw [split, ofBlock, whole, split_instrs plain ends]
  rfl

/-- A body that is laid out from blocks falls into their runs. -/
theorem split_blocks {blocks : List Block} (ended : ∀ b ∈ blocks, b.Ended) :
    split (FlowGraph.laidOut blocks) = blocks.map ofBlock := by
  induction blocks with
  | nil => rfl
  | cons b rest inductionHypothesis =>
    obtain ⟨first, others⟩ := List.forall_mem_cons.mp ended
    rw [FlowGraph.laidOut, List.flatMap_cons, List.cons_append, split_label_instrs first,
      ← FlowGraph.laidOut, inductionHypothesis others, List.map_cons]

end Run

theorem Block.Ended.terminator?_isSome {b : Block} (ended : b.Ended) :
    b.terminator?.isSome = true := by
  obtain ⟨body, last, whole, ends, _⟩ := ended
  rw [terminator?, last?, whole, List.getLast?_concat]
  exact ends

namespace FlowGraph

theorem nameRuns_ofBlock (used : KeySet String) (blocks : List Block) :
    nameRuns used (blocks.map Run.ofBlock) = blocks := by
  induction blocks with
  | nil => rfl
  | cons b rest inductionHypothesis =>
    rw [List.map_cons, Run.ofBlock, nameRuns, inductionHypothesis]

theorem endWith_of_ended {b : Block} (ended : b.Ended) (i : Instr) : endWith b i = b :=
  if_pos ended.terminator?_isSome

theorem closeBlocks_of_ended {blocks : List Block} (ended : ∀ b ∈ blocks, b.Ended) :
    closeBlocks blocks = blocks := by
  fun_induction closeBlocks blocks with
  | case1 => rfl
  | case2 b => rw [endWith_of_ended (ended b List.mem_cons_self)]
  | case3 b next rest inductionHypothesis =>
    obtain ⟨first, others⟩ := List.forall_mem_cons.mp ended
    rw [endWith_of_ended first, inductionHypothesis others]

theorem entryMentioned_eq_false {blocks : List Block} :
    entryMentioned blocks = false ↔ ∀ first, (blocks.map Block.name).head? = some first →
      ∀ b ∈ blocks, ∀ i ∈ b.instrs, first ∉ i.labels := by
  cases blocks with
  | nil => simp [entryMentioned]
  | cons first rest => simp [entryMentioned]

theorem entryMentioned_iff {blocks : List Block} :
    entryMentioned blocks = true ↔ ∃ first, (blocks.map Block.name).head? = some first ∧
      ∃ b ∈ blocks, ∃ i ∈ b.instrs, first ∈ i.labels := by
  rw [← Bool.not_eq_false, entryMentioned_eq_false]
  simp

/-- The blocks behind a new one that jumps to the first of them. -/
def entered (name first : String) (blocks : List Block) : List Block :=
  ⟨name, [.jmp first]⟩ :: blocks

variable {g : FlowGraph} {checkLabels : Bool}

theorem closeBlocks_entry {name first : String} (root : g.entry? = some first)
    (ended : ∀ b ∈ g.blocks, b.Ended) :
    closeBlocks (⟨name, []⟩ :: g.blocks) = entered name first g.blocks := by
  rw [ entry?, names] at root
  cases blocks : g.blocks with
  | nil => simp [blocks] at root
  | cons b rest =>
    rw [blocks] at root ended
    rw [closeBlocks, closeBlocks_of_ended ended, ← Option.some.inj root]
    rfl

theorem mem_bodyLabels_of_mem_names {name : String} (named : name ∈ g.names) :
    name ∈ bodyLabels g.body := by
  obtain ⟨b, inside, rfl⟩ := mem_names.mp named
  exact label_mem_bodyLabels (List.mem_flatMap.mpr ⟨b, inside, List.mem_cons_self⟩)

theorem bodyLabels_union_names (g : FlowGraph) :
    bodyLabels g.body ∪ .ofList g.names = bodyLabels g.body := by
  apply Std.ExtTreeSet.ext_mem
  intro label
  rw [Std.ExtTreeSet.mem_union_iff, KeySet.mem_ofList]
  exact or_iff_left_of_imp mem_bodyLabels_of_mem_names

theorem Indexed.dangling?_entered {name first : String} (indexed : g.Indexed)
    (fresh : name ∉ g.names) (root : g.entry? = some first) (resolved : g.dangling? = none) :
    (reindex { g with blocks := entered name first g.blocks }).dangling? = none := by
  have moved : (reindex { g with blocks := entered name first g.blocks }).Indexed :=
    indexed_reindex (List.nodup_cons.mpr ⟨fresh, indexed.distinct⟩)
  have known : ∀ target ∈ g.names, target ∈ name :: g.names :=
    fun target named => List.mem_cons_of_mem name named
  rw [indexed.dangling?_eq_none] at resolved
  apply moved.dangling?_eq_none.mpr
  intro b inside target targeted
  rcases List.mem_cons.mp inside with rfl | later
  · rw [show target = first from List.mem_singleton.mp targeted]
    exact known first (List.mem_of_mem_head? root)
  · exact known target (resolved b later target targeted)

namespace WellFormed

variable (wellFormed : g.WellFormed)

include wellFormed

theorem namedRuns_toFunction : namedRuns g.toFunction = g.blocks := by
  rw [namedRuns, toFunction, body, Run.split_blocks wellFormed.ended, nameRuns_ofBlock]

theorem countP_open : g.blocks.countP (fun b => b.terminator?.isNone) = 0 := by
  rw [List.countP_eq_zero]
  intro b inside
  have ends := (wellFormed.ended b inside).terminator?_isSome
  simpa [Option.isSome_iff_ne_none] using ends

/-- A graph whose first block is not mentioned is read back as it is. -/
theorem build_toFunction (unmentioned : entryMentioned g.blocks = false)
    (resolved : checkLabels = true → g.dangling? = none) :
    build g.toFunction checkLabels = .ok ⟨g, false, 0⟩ := by
  have runs := wellFormed.namedRuns_toFunction
  have blocks : openedRuns g.toFunction = g.blocks := by
    rw [openedRuns, runs, unmentioned]
    rfl
  have made : constructed g.toFunction = ⟨g, false, 0⟩ := by
    rw [constructed, blocks, runs, closeBlocks_of_ended wellFormed.ended, unmentioned,
      wellFormed.countP_open]
    exact congrArg (Construction.mk · false 0) wellFormed.indexed.reindex_eq
  exact build_eq_ok.mpr ⟨runs ▸ wellFormed.distinct, made.symm, resolved⟩

/-- A graph whose first block is mentioned is read back behind a new entry. -/
theorem build_toFunction_of_mentioned {first : String} (root : g.entry? = some first)
    (mentioned : entryMentioned g.blocks = true)
    (resolved : checkLabels = true → g.dangling? = none) :
    build g.toFunction checkLabels =
      .ok ⟨reindex { g with
        blocks := entered (freshName "entry" (bodyLabels g.body)) first g.blocks }, true, 1⟩ := by
  have runs := wellFormed.namedRuns_toFunction
  have blocks : openedRuns g.toFunction =
      ⟨freshName "entry" (bodyLabels g.body), []⟩ :: g.blocks := by
    rw [openedRuns, runs, mentioned, if_pos rfl]
    exact congrArg (fun used => Block.mk (freshName "entry" used) [] :: g.blocks)
      (bodyLabels_union_names g)
  have fresh : freshName "entry" (bodyLabels g.body) ∉ g.names := fun named =>
    freshName_not_mem "entry" (bodyLabels g.body) (mem_bodyLabels_of_mem_names named)
  rw [build_eq_ok, constructed, blocks, runs, mentioned, closeBlocks_entry root wellFormed.ended,
    List.countP_cons, wellFormed.countP_open]
  exact ⟨wellFormed.distinct, rfl, fun checked =>
    wellFormed.indexed.dangling?_entered fresh root (resolved checked)⟩

theorem ofFunction_toFunction_of_mentioned {first : String} (root : g.entry? = some first)
    (mentioned : entryMentioned g.blocks = true)
    (resolved : checkLabels = true → g.dangling? = none) :
    ofFunction g.toFunction checkLabels =
      .ok (reindex { g with
        blocks := entered (freshName "entry" (bodyLabels g.body)) first g.blocks }) := by
  rw [ofFunction, wellFormed.build_toFunction_of_mentioned root mentioned resolved]
  rfl

/-- A graph is read back as it is exactly if its first block is not mentioned. -/
theorem ofFunction_toFunction_iff (resolved : checkLabels = true → g.dangling? = none) :
    ofFunction g.toFunction checkLabels = .ok g ↔ entryMentioned g.blocks = false := by
  cases mentioned : entryMentioned g.blocks with
  | false =>
    rw [ofFunction, wellFormed.build_toFunction mentioned resolved]
    exact iff_of_true rfl rfl
  | true =>
    obtain ⟨first, root, _⟩ := entryMentioned_iff.mp mentioned
    rw [wellFormed.ofFunction_toFunction_of_mentioned root mentioned resolved]
    refine iff_of_false ?_ Bool.noConfusion
    -- The new entry makes one block more.
    intro same
    have lengths := congrArg (fun h : FlowGraph => h.blocks.length) (Except.ok.inj same)
    simp [entered] at lengths

end WellFormed

/-- No instruction of a constructed graph mentions the first block. -/
theorem entryMentioned_of_built {f : Function} (built : ofFunction f checkLabels = .ok g) :
    entryMentioned g.blocks = false := by
  obtain ⟨distinct, rfl⟩ := ofFunction_eq_ok built
  rw [entryMentioned_eq_false]
  intro first isFirst
  change (ofBlocks f _).names.head? = _ at isFirst
  rw [names_closed] at isFirst
  exact unmentioned_closeBlocks (openedRuns_distinct distinct) isFirst (openedRuns_unmentioned isFirst)

/-- Construction is stable on its own result. The body of a constructed graph is read back as
the same graph, with the same signature, the same blocks in the same places and the same index;
nothing is added in front of its blocks and nothing at their ends. -/
theorem rebuilt_unchanged (f : Function) (checkLabels : Bool) (g : FlowGraph)
    (built : ofFunction f checkLabels = .ok g) :
    ofFunction g.toFunction checkLabels = .ok g ∧
      build g.toFunction checkLabels = .ok ⟨g, false, 0⟩ := by
  have wellFormed := wellFormed_ofFunction built
  have unmentioned := entryMentioned_of_built built
  have resolved := resolved_of_checked built
  exact ⟨(wellFormed.ofFunction_toFunction_iff resolved).mpr unmentioned,
    wellFormed.build_toFunction unmentioned resolved⟩

/-- A loop through an empty first block, runs without a label in the middle and at the end,
and a label that reads like a generated name. The constant is not a number. -/
def scattered : Function where
  name := "main"
  params := [⟨"c", .primitive "bool"⟩]
  body := [
    .label "top",
    .label "bb1",
    .instr (.constant "x" (.primitive "float") (.float ⟨0x7ff8000000000000⟩)),
    .instr (.br "c" "top" "out"),
    .instr (.effect "print" ["x"]),
    .instr (.jmp "bb1"),
    .label "out",
    .instr (.ret []),
    .instr (.effect "print" [])]

theorem rebuilt_unchanged_scattered :
    ∃ g, ofFunction scattered true = .ok g ∧
      g.names = ["entry1", "top", "bb1", "bb2", "out", "bb3"] ∧ g.index["bb2"]? = some 3 ∧
      g.body.length = scattered.body.length + 6 ∧ ofFunction g.toFunction true = .ok g := by
  have facts : (ofFunction scattered true).toOption.any (fun g =>
      g.names = ["entry1", "top", "bb1", "bb2", "out", "bb3"] ∧ g.index["bb2"]? = some 3 ∧
      g.body.length = scattered.body.length + 6) = true := by decide +kernel
  obtain ⟨g, built, facts⟩ := exists_ok_of_any facts
  obtain ⟨names, index, length⟩ := of_decide_eq_true facts
  exact ⟨g, built, names, index, length, (rebuilt_unchanged scattered true g built).1⟩

end FlowGraph

end SsaForm
