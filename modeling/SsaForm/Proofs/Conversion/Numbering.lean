import SsaForm.Proofs.Conversion.Capture

/-!
# Versions are numbered in preorder

The blocks are visited in preorder of the dominator tree, and each visit numbers on: first
its merges, then the assignments in their order. Read in this order, the destinations that
stem from one variable are its versions from zero on, without a gap and none twice.
-/

namespace SsaForm

/-- Pairing instructions with what they stem from, with or without those that assign nothing. -/
theorem filterMap_zip_of_aligned {origins : List (Option String)} {instrs : List Instr}
    (aligned : (instrs.map fun i => i.dest.isSome) = origins.map Option.isSome) (var : String) :
    ((origins.zip instrs).filterMap fun pair => if pair.1 = some var then pair.2.dest else none) =
      ((origins.filterMap id).zip (instrs.filterMap Instr.dest)).filterMap fun pair =>
        if pair.1 = var then some pair.2 else none := by
  induction origins generalizing instrs with
  | nil => simp
  | cons origin rest inductionHypothesis =>
    cases instrs with
    | nil => simp at aligned
    | cons i others =>
      obtain ⟨same, later⟩ := List.cons_eq_cons.mp aligned
      rw [List.zip_cons_cons, List.filterMap_cons, inductionHypothesis later]
      cases origin with
      | none =>
        have plain : i.dest = none := by simpa using same
        simp [plain]
      | some source =>
        obtain ⟨dest, found⟩ := Option.isSome_iff_exists.mp same
        by_cases equal : source = var
        · simp [found, equal]
        · simp [found, equal]

theorem flatMap_zip_flatMap {α β γ : Type} {elements : List α} {f : α → List β} {h : α → List γ}
    (lengths : ∀ a ∈ elements, (f a).length = (h a).length) :
    (elements.flatMap f).zip (elements.flatMap h) =
      elements.flatMap fun a => (f a).zip (h a) := by
  induction elements with
  | nil => rfl
  | cons a rest inductionHypothesis =>
    obtain ⟨first, others⟩ := List.forall_mem_cons.mp lengths
    simp only [List.flatMap_cons, List.zip_append first, inductionHypothesis others]

namespace FlowGraph

open Renaming

/-- What the instructions of a block stem from once it is converted: the merges from their
variables in ascending order, the others from the destinations that stood there before. -/
def origins (g : FlowGraph) (b : Block) : List (Option String) :=
  (g.surveyed.phis.image b.name).toList.map some ++ b.instrs.map Instr.dest

/-- The destinations of a converted block that stem from a variable, in order. -/
def stemming (g converted : FlowGraph) (var name : String) : List String :=
  match g.block? name, converted.block? name with
  | some b, some c =>
    ((g.origins b).zip c.instrs).filterMap fun pair => if pair.1 = some var then pair.2.dest else none
  | _, _ => []

/-- The live blocks in preorder of the dominator tree. -/
def LivePreorder (g : FlowGraph) (order : List String) : Prop :=
  (g.entry? = none ∧ order = []) ∨
    ∃ entry, g.entry? = some entry ∧ Preordered g.successors entry entry order

/-- The number of assignments of a variable in live blocks. -/
def assignmentCount (g : FlowGraph) (var : String) : Nat :=
  ((g.blocks.filter fun b => b.name ∈ g.surveyed.live).flatMap Block.assigned).count var

/-- The number of live blocks that merge a variable. -/
def mergeCount (g : FlowGraph) (var : String) : Nat :=
  (g.blocks.filter fun b => b.name ∈ g.surveyed.live).countP fun b =>
    var ∈ g.surveyed.phis.image b.name

theorem Rooted.livePreorder {g : FlowGraph} {entry : String} (rooted : g.Rooted entry) :
    g.LivePreorder (VisitTree.unfold g.surveyed.tree entry).names :=
  .inr ⟨entry, rooted.root, VisitTree.preordered_unfold rooted.isDominance fun _ => rooted.mem_live⟩

theorem versionCount_eq (g : FlowGraph) (var : String) :
    g.versionCount var = g.assignmentCount var + g.mergeCount var := by
  rw [versionCount, assignmentCount, mergeCount]
  induction g.blocks.filter fun b => b.name ∈ g.surveyed.live with
  | nil => rfl
  | cons b rest inductionHypothesis =>
    have merged : (g.surveyed.phis.image b.name).toList.count var =
        if var ∈ g.surveyed.phis.image b.name then 1 else 0 := by
      rw [(KeySet.nodup_toList _).count]
      simp only [Std.ExtTreeSet.mem_toList]
    simp only [List.flatMap_cons, List.count_append, List.countP_cons, versioned, merged,
      decide_eq_true_eq, inductionHypothesis]
    omega

namespace Converts

variable {g : FlowGraph} {config : Config} {entry : String} {sites : List Site}
variable (converts : g.Converts config entry sites)

include converts

theorem livePreorder : g.LivePreorder (sites.map Site.name) := by
  rw [converts.order]
  exact converts.toRooted.livePreorder

theorem map_dest_isSome_finished {site : Site} (member : site ∈ sites) :
    (g.mergesAt config sites site ++ site.instrs).map (fun i => i.dest.isSome) =
      (g.origins site.block).map Option.isSome := by
  have merges : (g.mergesAt config sites site).map (fun i => i.dest.isSome) =
      site.merged.map fun _ => true := by
    rw [mergesAt, List.map_map, ← Site.map_fst_dests, List.map_map]
    rfl
  rw [List.map_append, merges, Site.instrs, Versions.map_dest_isSome_renameInstrs, origins,
    List.map_append, List.map_map, List.map_map, converts.merged site member]
  rfl

theorem length_mergesAt {site : Site} (member : site ∈ sites) :
    (g.mergesAt config sites site).length = (g.surveyed.phis.image site.name).size := by
  rw [mergesAt, List.length_map, Site.dests, List.length_zip, Versions.length_numbered, Nat.min_self,
    converts.merged site member, Std.ExtTreeSet.length_toList]

theorem filterMap_origins {site : Site} (member : site ∈ sites) :
    (g.origins site.block).filterMap id = site.made := by
  rw [origins, Site.made, converts.merged site member, Block.assigned]
  simp only [List.filterMap_append, List.filterMap_map, Function.id_comp, List.filterMap_some]
  rfl

theorem stemming_finished {site : Site} (member : site ∈ sites) (var : String) :
    g.stemming { g with blocks := g.blocks.map (g.finished config sites) } var site.name =
      (site.made.zip site.versions).filterMap fun pair =>
        if pair.1 = var then some pair.2 else none := by
  have found : g.block? site.name = some site.block :=
    converts.toWellFormed.block?_eq_some.mpr ⟨converts.sourced site member, rfl⟩
  have assigned := converts.finished_assigned member
  rw [converts.finished_of_site member, Block.assigned] at assigned
  rw [stemming, block?_map, found, Option.map_some, converts.finished_of_site member]
  simp only
  rw [filterMap_zip_of_aligned (converts.map_dest_isSome_finished member), assigned,
    converts.filterMap_origins member]

/-- In the order of the visits the destinations that stem from a variable are its first
versions. -/
theorem flatMap_stemming (var : String) :
    (sites.map Site.name).flatMap
        (g.stemming { g with blocks := g.blocks.map (g.finished config sites) } var) =
      (List.range (g.versionCount var)).map (versionName var) := by
  calc
    _ = sites.flatMap fun site => (site.made.zip site.versions).filterMap fun pair =>
          if pair.1 = var then some pair.2 else none := by
      rw [List.flatMap_map]
      exact List.flatMap_congr fun site member => converts.stemming_finished member var
    _ = ((sites.flatMap Site.made).zip (sites.flatMap Site.versions)).filterMap fun pair =>
          if pair.1 = var then some pair.2 else none := by
      have lengths : ∀ site ∈ sites, site.made.length = site.versions.length :=
        fun site _ => Versions.length_numbered.symm
      rw [flatMap_zip_flatMap lengths, List.filterMap_flatMap]
    _ = (List.range (g.versionCount var)).map (versionName var) := by
      rw [converts.versions, Versions.zip_numbered, converts.count_made]
      simp only [paramScope, Versions.counter_ofParams, Nat.zero_add]

theorem definedOnceAt_of_definedAt {version name : String} {position : Nat}
    (live : Live { g with blocks := g.blocks.map (g.finished config sites) } name)
    (defined : DefinedAt { g with blocks := g.blocks.map (g.finished config sites) } version name
      position) :
    DefinedOnceAt { g with blocks := g.blocks.map (g.finished config sites) } version name
      position := by
  obtain ⟨_, changed, rfl, i, found, named⟩ := defined
  obtain ⟨b, inside, rfl⟩ := List.mem_map.mp changed
  rw [finished_name] at live ⊢
  obtain ⟨site, member, rfl⟩ :=
    converts.exists_site_of_block inside (converts.finished_live.mp live)
  exact converts.definedOnceAt member found named

end Converts

/-- In a converted graph no two instructions of live blocks have the same destination, and
versions are numbered without gaps. A live block consists of as many merges as it has
variables to merge and of as many instructions as before. Read in preorder of the dominator
tree, and inside a block from its merges on, the destinations that stem from a variable are
the versions `0`, `1`, ... of the variable, as many as there are assignments and merges of it
in live blocks. -/
theorem versions_in_preorder (f : Function) (checkLabels : Bool) (g converted : FlowGraph)
    (config : Config) (built : ofFunction f checkLabels = .ok g)
    (succeeded : g.toSsa config = .ok converted) :
    (∀ version name position, converted.Live name → converted.DefinedAt version name position →
      converted.DefinedOnceAt version name position) ∧
    (∀ b ∈ g.blocks, g.Live b.name →
      ∃ merges renamed, ⟨b.name, merges ++ renamed⟩ ∈ converted.blocks ∧
        (∀ phi ∈ merges, phi.isPhi = true) ∧
        merges.length = (g.surveyed.phis.image b.name).size ∧
        renamed.length = b.instrs.length ∧
        ((merges ++ renamed).map fun i => i.dest.isSome) = (g.origins b).map Option.isSome) ∧
    ∃ order, g.LivePreorder order ∧ ∀ var,
      order.flatMap (g.stemming converted var) =
        (List.range (g.assignmentCount var + g.mergeCount var)).map (versionName var) := by
  cases listed : g.blocks with
  | nil =>
    have rootless : g.entry? = none := entry?_eq_none.mpr listed
    rw [toSsa_of_no_entry rootless] at succeeded
    cases succeeded
    refine ⟨?_, ?_, [], .inl ⟨rootless, rfl⟩, ?_⟩
    · intro version name position live
      exact absurd live (not_live_of_no_entry rootless name)
    · rintro b inside
      cases inside
    · intro var
      simp [assignmentCount, mergeCount, listed]
  | cons first rest =>
    have inside : first ∈ g.blocks := by rw [listed]; exact List.mem_cons_self
    obtain ⟨entry, sites, converts, rfl⟩ :=
      (wellFormed_ofFunction built).converts_of_toSsa succeeded inside
    rw [← listed]
    refine ⟨fun _ _ _ => converts.definedOnceAt_of_definedAt, ?_, _, converts.livePreorder, ?_⟩
    · intro b inside live
      obtain ⟨site, member, rfl⟩ :=
        converts.exists_site_of_block inside (converts.toRooted.live_iff.mp live)
      have changed := List.mem_map_of_mem (f := g.finished config sites) inside
      rw [converts.finished_of_site member] at changed
      exact ⟨_, _, changed, isPhi_mergesAt site, converts.length_mergesAt member,
        Versions.length_renameInstrs _, converts.map_dest_isSome_finished member⟩
    · intro var
      rw [converts.flatMap_stemming, versionCount_eq]

/-- A loop that assigns a variable and one with the name of a version of it, and a block
behind the loop that nothing reaches. -/
def counting : Function where
  name := "main"
  params := [⟨"c", .primitive "bool"⟩]
  body := [
    .instr (.constant "x" (.primitive "int") (.int 0)),
    .label "head",
    .instr (.assign "id" "x.0" (.primitive "int") ["x"]),
    .instr (.assign "add" "x" (.primitive "int") ["x", "x.0"]),
    .instr (.br "c" "head" "out"),
    .instr (.assign "id" "x" (.primitive "int") ["c"]),
    .label "out",
    .instr (.effect "print" ["x"])]

theorem versions_in_preorder_counting :
    ∃ g converted, ofFunction counting true = .ok g ∧ g.toSsa {} = .ok converted ∧
      ∃ order, g.LivePreorder order ∧
        order.flatMap (g.stemming converted "x") = ["x.0", "x.1", "x.2"] ∧
        order.flatMap (g.stemming converted "x.0") = ["x.0.0", "x.0.1"] := by
  have facts : (ofFunction counting true).toOption.any (fun g =>
      (g.toSsa {}).toOption.any fun _ =>
        g.assignmentCount "x" + g.mergeCount "x" = 3 ∧
        g.assignmentCount "x.0" + g.mergeCount "x.0" = 2) = true := by decide +kernel
  obtain ⟨g, built, facts⟩ := exists_ok_of_any facts
  obtain ⟨converted, succeeded, facts⟩ := exists_ok_of_any facts
  obtain ⟨first, second⟩ := of_decide_eq_true facts
  obtain ⟨_, _, order, preorder, numbered⟩ :=
    versions_in_preorder counting true g converted {} built succeeded
  refine ⟨g, converted, built, succeeded, order, preorder, ?_, ?_⟩
  · rw [numbered, first]
    decide +kernel
  · rw [numbered, second]
    decide +kernel

end FlowGraph

end SsaForm
