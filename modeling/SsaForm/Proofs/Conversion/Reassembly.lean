import SsaForm.Proofs.Conversion.Capture
import SsaForm.Proofs.Conversion.Frame
import SsaForm.Proofs.Conversion.JoinPoints
import SsaForm.Proofs.FlowGraph.Reassembly

/-!
# Reading a converted function back

A converted graph ends its blocks as before, so its body falls into the same blocks again. It
may mention its first block though, which a constructed graph never does: a merge is labelled
with the predecessors of its block, and one of them may be the entry. Construction takes the
label for a jump and puts a new block in front. Nothing else can happen.
-/

namespace SsaForm

theorem Renaming.Site.exists_labels {site : Renaming.Site} {i : Instr} (listed : i ∈ site.instrs) :
    ∃ original ∈ site.block.instrs, original.labels = i.labels := by
  have shaped : i.shape ∈ site.block.instrs.map Instr.shape := by
    rw [← Versions.map_shape_renameInstrs site.inside]
    exact List.mem_map_of_mem listed
  obtain ⟨original, inside, same⟩ := List.mem_map.mp shaped
  have labels : original.shape.labels = i.shape.labels := congrArg Instr.labels same
  exact ⟨original, inside, labels⟩

namespace FlowGraph

open Renaming

/-- The conversion has given a successor of the entry a merge. -/
def MergesBehindEntry (g converted : FlowGraph) : Prop :=
  ∃ entry, g.entry? = some entry ∧
    ∃ name ∈ g.successors.image entry, ∃ var, g.Merges converted var name

variable {g : FlowGraph} {config : Config} {entry : String} {sites : List Site}

/-- What mentions the entry of a converted graph is a merge in one of its successors. -/
theorem Converts.entryMentioned_iff (converts : g.Converts config entry sites)
    (unmentioned : entryMentioned g.blocks = false) :
    entryMentioned (g.blocks.map (g.finished config sites)) = true ↔
      g.MergesBehindEntry { g with blocks := g.blocks.map (g.finished config sites) } := by
  have root := converts.root
  have isFirst : ((g.blocks.map (g.finished config sites)).map Block.name).head? = some entry := by
    rw [← root]
    exact congrArg List.head? (names_map finished_name)
  have quiet := entryMentioned_eq_false.mp unmentioned entry root
  rw [FlowGraph.entryMentioned_iff]
  constructor
  · rintro ⟨first, same, changed, inside, i, listed, mentions⟩
    cases isFirst.symm.trans same
    obtain ⟨b, original, rfl⟩ := List.mem_map.mp inside
    by_cases reached : g.successors.Reaches entry b.name
    · obtain ⟨site, member, rfl⟩ := converts.exists_site_of_block original reached
      rw [converts.finished_of_site member] at listed
      -- Renaming keeps labels, so only a merge can have brought the entry's name in.
      rcases List.mem_append.mp listed with merge | renamed
      · obtain ⟨made, here, rfl⟩ := List.mem_map.mp merge
        obtain ⟨_, edge⟩ := ((converts.coversPredecessors member here).complete entry).mp mentions
        exact ⟨entry, root, site.name, converts.toRooted.mem_predecessors.mp edge, made.1,
          converts.merges_iff.mpr (converts.placed_of_made member here)⟩
      · obtain ⟨source, here, labels⟩ := Site.exists_labels renamed
        rw [← labels] at mentions
        exact absurd mentions (quiet _ original source here)
    · rw [converts.finished_of_unreached reached] at listed
      exact absurd mentions (quiet b original i listed)
  · rintro ⟨_, same, name, related, var, merges⟩
    cases root.symm.trans same
    have placed := converts.merges_iff.mp merges
    obtain ⟨site, member, rfl⟩ := converts.exists_site (converts.toRooted.reaches_of_merged placed).1
    rw [← converts.mem_merged member, ← Site.map_fst_dests] at placed
    obtain ⟨made, here, rfl⟩ := List.mem_map.mp placed
    refine ⟨entry, isFirst, _, List.mem_map_of_mem (converts.sourced site member),
      g.mergeInstr config sites site.name made, ?_, ?_⟩
    · rw [converts.finished_of_site member]
      exact List.mem_append_left _ (List.mem_map_of_mem here)
    · exact ((converts.coversPredecessors member here).complete entry).mpr
        ⟨converts.toRooted.live_iff.mpr (.refl _ _), converts.toRooted.mem_predecessors.mpr related⟩

variable {converted : FlowGraph}

theorem WellFormed.entryMentioned_toSsa_iff (wellFormed : g.WellFormed)
    (unmentioned : entryMentioned g.blocks = false) (succeeded : g.toSsa config = .ok converted) :
    entryMentioned converted.blocks = true ↔ g.MergesBehindEntry converted := by
  cases root : g.entry? with
  | none =>
    cases (toSsa_of_no_entry root).symm.trans succeeded
    simp [unmentioned, MergesBehindEntry, root]
  | some entry =>
    obtain ⟨noFault, rfl⟩ := toSsa_eq_ok.mp succeeded
    obtain ⟨sites, converts, graph⟩ :=
      (wellFormed.rooted_of_convert root noFault).converts noFault
    rw [graph]
    exact converts.entryMentioned_iff unmentioned

theorem WellFormed.dangling?_convert (wellFormed : g.WellFormed) (config : Config) :
    (g.convert config).graph.dangling? = g.dangling? := by
  rw [(wellFormed_convert wellFormed config).indexed.dangling?_eq_find?,
    wellFormed.indexed.dangling?_eq_find?, links_eq_outline, links_eq_outline,
    wellFormed.outline_convert, names_convert]

/-- A converted function is read back. It gives the graph that it was laid out from exactly if
no successor of the entry has got a merge. Otherwise it gives the blocks of that graph behind
one new block, which jumps to the first of them, with all positions counted anew. -/
theorem converted_reread_iff (f result : Function) (config : Config)
    (succeeded : f.toSsa config = .ok result) :
    ∃ g converted, ofFunction f config.checkLabels = .ok g ∧ g.toSsa config = .ok converted ∧
      result = converted.toFunction ∧
      (ofFunction result config.checkLabels = .ok converted ↔ ¬ g.MergesBehindEntry converted) ∧
      (g.MergesBehindEntry converted → ∃ first, converted.entry? = some first ∧
        ofFunction result config.checkLabels = .ok (reindex { converted with
          blocks := entered (freshName "entry" (bodyLabels result.body)) first
            converted.blocks })) := by
  obtain ⟨g, converted, built, converts, rfl⟩ := Function.toSsa_eq_ok succeeded
  refine ⟨g, converted, built, converts, rfl, ?_⟩
  have wellFormed := wellFormed_ofFunction built
  have mentioned := wellFormed.entryMentioned_toSsa_iff (entryMentioned_of_built built) converts
  obtain ⟨_, rfl⟩ := toSsa_eq_ok.mp converts
  have shaped := wellFormed_convert wellFormed config
  have resolved : config.checkLabels = true → (g.convert config).graph.dangling? = none := by
    rw [wellFormed.dangling?_convert]
    exact resolved_of_checked built
  constructor
  · rw [shaped.ofFunction_toFunction_iff resolved, ← Bool.not_eq_true, mentioned]
  · intro behind
    have isMentioned := mentioned.mpr behind
    obtain ⟨first, root, _⟩ := FlowGraph.entryMentioned_iff.mp isMentioned
    exact ⟨first, root, shaped.ofFunction_toFunction_of_mentioned root isMentioned resolved⟩

/-- A variable that only one of two paths from the entry to a block assigns. -/
def skipping : Function where
  name := "main"
  params := [⟨"c", .primitive "bool"⟩]
  body := [
    .instr (.br "c" "left" "join"),
    .label "left",
    .instr (.constant "x" (.primitive "int") (.int 1)),
    .label "join",
    .instr (.effect "print" ["x"])]

theorem converted_reread_iff_skipping :
    ∃ result g converted, skipping.toSsa {} = .ok result ∧ ofFunction skipping true = .ok g ∧
      g.toSsa {} = .ok converted ∧ converted.names = ["bb1", "left", "join"] ∧
      g.MergesBehindEntry converted ∧
      ofFunction result true = .ok (reindex { converted with
        blocks := entered "entry1" "bb1" converted.blocks }) := by
  have facts : (skipping.toSsa {}).toOption.any (fun result =>
      (ofFunction skipping true).toOption.any fun g => (g.toSsa {}).toOption.any fun converted =>
        converted.names = ["bb1", "left", "join"] ∧
        freshName "entry" (bodyLabels result.body) = "entry1" ∧
        (ofFunction result true).toOption.any fun again => again.names ≠ converted.names) = true := by
    decide +kernel
  obtain ⟨result, succeeded, facts⟩ := exists_ok_of_any facts
  obtain ⟨g, built, facts⟩ := exists_ok_of_any facts
  obtain ⟨converted, converts, facts⟩ := exists_ok_of_any facts
  obtain ⟨names, fresh, facts⟩ := of_decide_eq_true facts
  obtain ⟨again, reread, different⟩ := exists_ok_of_any facts
  obtain ⟨_, _, sameGraph, sameConverted, _, exactly, otherwise⟩ :=
    converted_reread_iff skipping result {} succeeded
  cases built.symm.trans sameGraph
  cases converts.symm.trans sameConverted
  have behind : g.MergesBehindEntry converted := by
    by_contra quiet
    cases reread.symm.trans (exactly.mpr quiet)
    simp at different
  obtain ⟨first, root, entered⟩ := otherwise behind
  rw [ entry?, names] at root
  cases root
  rw [fresh] at entered
  exact ⟨result, g, converted, succeeded, built, converts, names, behind, entered⟩

/-- The converted function is read back with a block that the converted graph does not have,
and it is laid out differently again. -/
theorem skipping_reread_differs :
    ∃ result g converted again, skipping.toSsa {} = .ok result ∧
      ofFunction skipping true = .ok g ∧ g.toSsa {} = .ok converted ∧
      result = converted.toFunction ∧ ofFunction result true = .ok again ∧
      again.names = "entry1" :: converted.names ∧ again.blocks ≠ converted.blocks ∧
      again.toFunction ≠ result := by
  have facts : (skipping.toSsa {}).toOption.any (fun result =>
      (ofFunction result true).toOption.any fun again =>
        again.names = ["entry1", "bb1", "left", "join"] ∧ again.body ≠ result.body) = true := by
    decide +kernel
  have graphs : (ofFunction skipping true).toOption.any (fun g =>
      (g.toSsa {}).toOption.any fun converted => converted.names = ["bb1", "left", "join"]) = true := by
    decide +kernel
  obtain ⟨result, succeeded, facts⟩ := exists_ok_of_any facts
  obtain ⟨again, reread, facts⟩ := exists_ok_of_any facts
  obtain ⟨more, different⟩ := of_decide_eq_true facts
  obtain ⟨g, converted, built, converts, laidOut⟩ := Function.toSsa_eq_ok succeeded
  rw [built] at graphs
  simp only [Except.toOption, Option.any_some, converts, decide_eq_true_eq] at graphs
  refine ⟨result, g, converted, again, succeeded, built, converts, laidOut, reread, ?_, ?_, ?_⟩
  · rw [more, graphs]
  · intro same
    rw [names, same, ← names, graphs] at more
    exact absurd more (by decide)
  · rintro rfl
    exact different rfl

end FlowGraph

end SsaForm
