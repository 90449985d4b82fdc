import SsaForm.Proofs.Conversion.Definitions

/-!
# What dead code has a say in

Two graphs that agree on their live blocks have the same paths from the entry, so their
surveys are the same, and the walk through the live blocks never opens another block. Dead
code has a say in one thing only: a merge is declared with the type of the last assignment
to its variable, and that one may be dead.
-/

namespace SsaForm

/-- The instruction without the type of its destination. -/
def Instr.untyped (i : Instr) : Instr :=
  { i with ty := none }

theorem Phi.map_untyped_instrs (tables : Phi.Tables) (types others : Table String Ty)
    (block : String) :
    (Phi.instrs tables types block).map Instr.untyped =
      (Phi.instrs tables others block).map Instr.untyped := by
  rw [Phi.instrs, Phi.instrs, List.map_map, List.map_map]
  rfl

theorem Phi.instrs_eq_iff {tables : Phi.Tables} {types others : Table String Ty}
    {block : String} :
    Phi.instrs tables types block = Phi.instrs tables others block ↔
      ∀ var ∈ tables.dests.getD block ∅, types[var]? = others[var]? := by
  rw [Phi.instrs, Phi.instrs, List.map_inj_left]
  constructor
  · intro same var merged
    have listed : (var, (tables.dests.getD block ∅)[var]) ∈ (tables.dests.getD block ∅).toList :=
      Std.ExtTreeMap.mem_toList_iff_getElem?_eq_some.mpr
        (Std.ExtTreeMap.getElem?_eq_some_getElem merged)
    exact congrArg Instr.ty (same _ listed)
  · rintro same ⟨var, dest⟩ listed
    have stored := Std.ExtTreeMap.mem_toList_iff_getElem?_eq_some.mp listed
    have merged : var ∈ tables.dests.getD block ∅ :=
      Std.ExtTreeMap.mem_iff_isSome_getElem?.mpr (by rw [stored]; rfl)
    simp only [same var merged]

namespace Renaming

/-- The same state with each of its blocks changed. -/
def State.mapBlocks (state : State) (change : Block → Block) : State :=
  { state with blocks := state.blocks.map change }

theorem splitLast?_map {change : Block → Block} (kept : ∀ b, (change b).name = b.name)
    {name : String} (blocks : List Block) :
    splitLast? name (blocks.map change) =
      (splitLast? name blocks).map fun parts =>
        (parts.1.map change, change parts.2.1, parts.2.2.map change) := by
  induction blocks with
  | nil => rfl
  | cons b rest inductionHypothesis =>
    rw [List.map_cons, splitLast?, inductionHypothesis, splitLast?]
    cases splitLast? name rest with
    | some parts => rfl
    | none =>
      by_cases named : b.name = name
      · simp [kept, named]
      · simp [kept, named]

/-- A visit does not look at blocks with another name. -/
theorem visit_mapBlocks {change : Block → Block} (kept : ∀ b, (change b).name = b.name)
    {plan : Plan} {name : String} {state after : State} {made : List String}
    (fixed : ∀ b, b.name = name → change b = b)
    (visited : visit plan name state = .ok (after, made)) :
    visit plan name (state.mapBlocks change) = .ok (after.mapBlocks change, made) := by
  obtain ⟨before, block, behind, tables, parts, fedTables, rfl, rfl⟩ := visit_eq_ok.mp visited
  obtain ⟨_, named, _⟩ := splitLast?_eq_some parts
  refine visit_eq_ok.mpr ⟨before.map change, block, behind.map change, tables, ?_, fedTables, ?_,
    rfl⟩
  · rw [State.mapBlocks, splitLast?_map kept, parts, Option.map_some, fixed block named]
  · have renamed : change (plan.siteOf block state.versions).renamed =
        (plan.siteOf block state.versions).renamed := fixed _ named
    simp only [State.mapBlocks, List.map_append, List.map_cons, renamed]

mutual

theorem visitTree_mapBlocks {change : Block → Block} (kept : ∀ b, (change b).name = b.name)
    {plan : Plan} (tree : VisitTree) {state after : State}
    (fixed : ∀ b, b.name ∈ tree.names → change b = b)
    (visited : visitTree plan state tree = .ok after) :
    visitTree plan (state.mapBlocks change) tree = .ok (after.mapBlocks change) := by
  cases tree with
  | node name children =>
    obtain ⟨inside, made, last, atRoot, below, rfl⟩ := visitTree_eq_ok.mp visited
    rw [VisitTree.names] at fixed
    refine visitTree_eq_ok.mpr ⟨_, made, last.mapBlocks change, visit_mapBlocks kept ?_ atRoot,
      visitForest_mapBlocks kept children ?_ below, rfl⟩
    · rintro b rfl
      exact fixed b List.mem_cons_self
    · intro b listed
      exact fixed b (List.mem_cons_of_mem _ listed)

/-- The walk does not look at blocks outside of its tree. -/
theorem visitForest_mapBlocks {change : Block → Block} (kept : ∀ b, (change b).name = b.name)
    {plan : Plan} (forest : List VisitTree) {state after : State}
    (fixed : ∀ b, b.name ∈ VisitTree.forestNames forest → change b = b)
    (visited : visitForest plan state forest = .ok after) :
    visitForest plan (state.mapBlocks change) forest = .ok (after.mapBlocks change) := by
  cases forest with
  | nil =>
    cases visited
    rfl
  | cons tree rest =>
    obtain ⟨middle, first, others⟩ := visitForest_cons_eq_ok.mp visited
    rw [VisitTree.forestNames] at fixed
    refine visitForest_cons_eq_ok.mpr ⟨_, visitTree_mapBlocks kept tree ?_ first,
      visitForest_mapBlocks kept rest ?_ others⟩
    · intro b listed
      exact fixed b (List.mem_append_left _ listed)
    · intro b listed
      exact fixed b (List.mem_append_right _ listed)

end

end Renaming

namespace FlowGraph

open Renaming

/-- The first graph's parameters, block names and live blocks are those of the second. -/
structure AgreesLive (g h : FlowGraph) : Prop where
  params : g.params = h.params
  names : g.names = h.names
  bodies : ∀ b ∈ g.blocks, g.Live b.name → b ∈ h.blocks

theorem agreesLive_iff {g h : FlowGraph} :
    g.AgreesLive h ↔ g.params = h.params ∧ g.names = h.names ∧
      ∀ b ∈ g.blocks, g.Live b.name → b ∈ h.blocks :=
  ⟨fun agrees => ⟨agrees.params, agrees.names, agrees.bodies⟩,
    fun parts => ⟨parts.1, parts.2.1, parts.2.2⟩⟩

instance decidableAgreesLive (g h : FlowGraph) : Decidable (g.AgreesLive h) :=
  decidable_of_iff _ agreesLive_iff.symm

/-- The block, or an empty one in its place if it is not live. -/
def cleared (live : KeySet String) (b : Block) : Block :=
  if b.name ∈ live then b else { b with instrs := [] }

theorem cleared_name (live : KeySet String) (b : Block) : (cleared live b).name = b.name := by
  rw [cleared]
  split <;> rfl

theorem cleared_of_mem {live : KeySet String} {b : Block} (inside : b.name ∈ live) :
    cleared live b = b :=
  if_pos inside

theorem filter_map_cleared (live : KeySet String) (blocks : List Block) :
    ((blocks.map (cleared live)).filter fun b => b.name ∈ live) =
      blocks.filter fun b => b.name ∈ live := by
  rw [List.filter_map]
  simp only [Function.comp_def, cleared_name]
  refine (List.map_congr_left ?_).trans (List.map_id _)
  intro b inside
  exact cleared_of_mem (of_decide_eq_true (List.mem_filter.mp inside).2)

/-- A block that is not cleared is found in every list that clears to the same blocks. -/
theorem mem_of_map_cleared {live : KeySet String} {blocks others : List Block}
    (same : blocks.map (cleared live) = others.map (cleared live)) {b : Block}
    (inside : b ∈ blocks) (isLive : b.name ∈ live) : b ∈ others := by
  have found : cleared live b ∈ others.map (cleared live) := by
    rw [← same]
    exact List.mem_map_of_mem inside
  obtain ⟨other, listed, equal⟩ := List.mem_map.mp found
  have named : other.name = b.name := by
    rw [← cleared_name live, equal, cleared_name]
  rw [cleared_of_mem isLive, cleared_of_mem (named ▸ isLive)] at equal
  rw [← equal]
  exact listed

namespace AgreesLive

variable {g h : FlowGraph} {entry : String}
variable (agrees : g.AgreesLive h) (left : g.Rooted entry) (right : h.Rooted entry)

include agrees left right

theorem image_successors_eq {name : String} (reached : g.successors.Reaches entry name) :
    g.successors.image name = h.successors.image name := by
  obtain ⟨b, inside, rfl⟩ := mem_names.mp (left.mem_names_of_reaches reached)
  have shared : b ∈ h.blocks := agrees.bodies b inside (left.live_iff.mpr reached)
  rw [left.image_successors inside, right.image_successors shared]

theorem path_iff {visited : List String} {node : String} :
    g.successors.Path entry visited node ↔ h.successors.Path entry visited node := by
  apply Relation.path_congr
  intro name reached next
  rw [agrees.image_successors_eq left right reached]

theorem reaches_iff {node : String} :
    g.successors.Reaches entry node ↔ h.successors.Reaches entry node :=
  exists_congr fun _ => agrees.path_iff left right

theorem dominates_iff {dominator node : String} :
    Dominates g.successors entry dominator node ↔ Dominates h.successors entry dominator node :=
  forall_congr' fun _ => imp_congr (agrees.path_iff left right) Iff.rfl

theorem surveyed_live : g.surveyed.live = h.surveyed.live := by
  apply Std.ExtTreeSet.ext_mem
  intro name
  rw [left.mem_live, right.mem_live, agrees.reaches_iff left right]

theorem surveyed_successors : g.surveyed.successors = h.surveyed.successors := by
  apply Relation.ext_image
  · intro name
    rw [surveyed, survey, surveyed, survey, liveSuccessors, liveSuccessors, Relation.mem_restrict,
      Relation.mem_restrict, left.mem_liveBlocks, right.mem_liveBlocks, mem_successors,
      mem_successors, agrees.names, agrees.reaches_iff left right]
  · intro name target
    rw [left.mem_surveyed_successors, right.mem_surveyed_successors, ← agrees.reaches_iff left right]
    apply and_congr_right
    intro reached
    rw [agrees.image_successors_eq left right reached]

theorem liveDominators_eq :
    g.liveDominators ⟨g.successors, g.predecessors⟩ =
      h.liveDominators ⟨h.successors, h.predecessors⟩ := by
  apply Relation.ext_image
  · intro name
    rw [left.isDominance.keys, right.isDominance.keys, agrees.reaches_iff left right]
  · intro name dominator
    rw [left.isDominance.mem_image, right.isDominance.mem_image, agrees.reaches_iff left right,
      agrees.dominates_iff left right]

theorem map_cleared :
    g.blocks.map (cleared g.surveyed.live) = h.blocks.map (cleared g.surveyed.live) := by
  apply List.ext_getElem?
  intro position
  have named : g.blocks[position]?.map Block.name = h.blocks[position]?.map Block.name := by
    rw [← List.getElem?_map, ← List.getElem?_map]
    exact congrArg (·[position]?) agrees.names
  rw [List.getElem?_map, List.getElem?_map]
  cases found : g.blocks[position]? with
  | none =>
    rw [found, Option.map_none] at named
    rw [Option.map_eq_none_iff.mp named.symm]
  | some b =>
    rw [found, Option.map_some] at named
    obtain ⟨c, other, sameName⟩ := Option.map_eq_some_iff.mp named.symm
    rw [other, Option.map_some, Option.map_some]
    by_cases isLive : b.name ∈ g.surveyed.live
    · have shared : b ∈ h.blocks := agrees.bodies b (List.mem_of_getElem? found)
        (left.live_iff.mpr (left.mem_live.mp isLive))
      rw [right.eq_of_name shared (List.mem_of_getElem? other) sameName.symm]
    · simp only [cleared, sameName, isLive, if_false]

theorem surveyed_eq : g.surveyed = h.surveyed := by
  have live : g.liveBlocks ⟨g.successors, g.predecessors⟩ =
      h.liveBlocks ⟨h.successors, h.predecessors⟩ := agrees.surveyed_live left right
  have successors : g.liveSuccessors ⟨g.successors, g.predecessors⟩ =
      h.liveSuccessors ⟨h.successors, h.predecessors⟩ := agrees.surveyed_successors left right
  have blocks : (g.blocks.filter fun b => b.name ∈ h.liveBlocks ⟨h.successors, h.predecessors⟩) =
      h.blocks.filter fun b => b.name ∈ h.liveBlocks ⟨h.successors, h.predecessors⟩ := by
    rw [← live, ← filter_map_cleared, ← filter_map_cleared _ h.blocks]
    exact congrArg (List.filter _) (agrees.map_cleared left right)
  simp only [surveyed, survey, agrees.liveDominators_eq left right, live, successors, blocks]

/-- The walks through both graphs decide the same about the merges and leave the same live
blocks. -/
theorem walks_agree {config : Config} {state other : State}
    (visited : g.conversionWalk config entry = .ok state)
    (visitedOther : h.conversionWalk config entry = .ok other) :
    state.tables = other.tables ∧
      state.blocks.map (cleared g.surveyed.live) = other.blocks.map (cleared g.surveyed.live) := by
  have fixed : ∀ b : Block, b.name ∈ (VisitTree.unfold g.surveyed.tree entry).names →
      cleared g.surveyed.live b = b := fun b listed =>
    cleared_of_mem (left.mem_live.mpr ((left.names_unfold.1 b.name).mp listed))
  -- The walk of a cleared graph is the cleared walk, and both graphs clear to the same blocks.
  rw [conversionWalk] at visited
  have first := visitTree_mapBlocks (cleared_name g.surveyed.live) _ fixed visited
  have plan : g.plan config = h.plan config := by
    rw [FlowGraph.plan, FlowGraph.plan, agrees.surveyed_eq left right]
  rw [conversionWalk, ← agrees.surveyed_eq left right, ← plan] at visitedOther
  have second := visitTree_mapBlocks (cleared_name g.surveyed.live) _ fixed visitedOther
  have start : State.mapBlocks ⟨g.blocks, g.paramScope, {}, []⟩ (cleared g.surveyed.live) =
      State.mapBlocks ⟨h.blocks, h.paramScope, {}, []⟩ (cleared g.surveyed.live) := by
    simp only [State.mapBlocks, paramScope, agrees.params, agrees.map_cleared left right]
  rw [start, second, Except.ok.injEq] at first
  have tables := congrArg State.tables first
  have blocks := congrArg State.blocks first
  exact ⟨tables.symm, blocks.symm⟩

end AgreesLive

theorem Converts.mem_dests {g : FlowGraph} {config : Config} {entry : String} {sites : List Site}
    {state : State} (converts : g.Converts config entry sites)
    (reflects : Reflects (g.plan config) g.blocks sites state) {name var : String}
    (reached : g.successors.Reaches entry name) :
    var ∈ state.tables.dests.getD name ∅ ↔ var ∈ g.surveyed.phis.image name := by
  obtain ⟨site, member, rfl⟩ := converts.exists_site reached
  rw [Std.ExtTreeMap.getD_eq_getD_getElem?, reflects.dests,
    (siteAt?_eq_some converts.once).mpr ⟨member, rfl⟩, Option.map_some, Option.getD_some,
    Std.ExtTreeMap.mem_ofList, Site.map_fst_dests, List.contains_iff_mem, converts.mem_merged member]

theorem Rooted.exists_walk {g converted : FlowGraph} {config : Config} {entry : String}
    (rooted : g.Rooted entry) (succeeded : g.toSsa config = .ok converted) :
    ∃ state sites, g.conversionWalk config entry = .ok state ∧
      g.Converts config entry sites ∧ Reflects (g.plan config) g.blocks sites state ∧
      converted = { g with blocks := Phi.insert state.tables g.declaredTypes state.blocks } := by
  obtain ⟨noFault, rfl⟩ := toSsa_eq_ok.mp succeeded
  rcases rooted.convert_cases with ⟨state, visited, _, graph⟩ | ⟨_, _, failed, _⟩
  · obtain ⟨sites, converts, reflects⟩ := rooted.converts_of_walk visited
    exact ⟨state, sites, visited, converts, reflects, graph⟩
  · cases noFault.symm.trans failed

section Outcomes

variable {g h converted twin : FlowGraph} {config : Config} {entry : String}

/-- The conversions of two graphs that agree on their live blocks: the live blocks have the
same merges, each graph with its own types, in front of the same instructions. -/
theorem AgreesLive.exists_tables (agrees : g.AgreesLive h) (left : g.Rooted entry)
    (right : h.Rooted entry) (succeeded : g.toSsa config = .ok converted)
    (succeededTwin : h.toSsa config = .ok twin) :
    ∃ tables : Phi.Tables,
      (∀ name var, g.successors.Reaches entry name →
        (var ∈ tables.dests.getD name ∅ ↔ var ∈ g.surveyed.phis.image name)) ∧
      ∀ b ∈ converted.blocks, g.successors.Reaches entry b.name →
        ∃ renamed, b = ⟨b.name, Phi.instrs tables g.declaredTypes b.name ++ renamed⟩ ∧
          ⟨b.name, Phi.instrs tables h.declaredTypes b.name ++ renamed⟩ ∈ twin.blocks := by
  obtain ⟨state, sites, visited, converts, reflects, rfl⟩ := left.exists_walk succeeded
  obtain ⟨other, _, visitedTwin, _, _, rfl⟩ := right.exists_walk succeededTwin
  obtain ⟨tables, blocks⟩ := agrees.walks_agree left right visited visitedTwin
  refine ⟨state.tables, fun _ _ => converts.mem_dests reflects, ?_⟩
  intro b inside reached
  obtain ⟨original, listed, rfl⟩ := List.mem_map.mp inside
  have shared : original ∈ other.blocks :=
    mem_of_map_cleared blocks listed (left.mem_live.mpr reached)
  refine ⟨original.instrs, rfl, ?_⟩
  rw [tables]
  exact List.mem_map_of_mem shared

/-- What a conversion leaves as it is. -/
theorem Rooted.toSsa_frame (rooted : g.Rooted entry) (succeeded : g.toSsa config = .ok converted) :
    converted.params = g.params ∧ converted.names = g.names ∧
      ∀ name, converted.Live name ↔ g.successors.Reaches entry name := by
  obtain ⟨noFault, rfl⟩ := toSsa_eq_ok.mp succeeded
  obtain ⟨sites, converts, graph⟩ := rooted.converts noFault
  rw [graph]
  exact ⟨rfl, names_map finished_name, fun _ => converts.finished_live⟩

theorem AgreesLive.agreesLive_converted_iff (agrees : g.AgreesLive h) (left : g.Rooted entry)
    (right : h.Rooted entry) (succeeded : g.toSsa config = .ok converted)
    (succeededTwin : h.toSsa config = .ok twin) :
    converted.AgreesLive twin ↔
      ∀ name, g.Live name → ∀ var ∈ g.surveyed.phis.image name,
        g.declaredTypes[var]? = h.declaredTypes[var]? := by
  obtain ⟨params, names, live⟩ := left.toSsa_frame succeeded
  obtain ⟨paramsTwin, namesTwin, _⟩ := right.toSsa_frame succeededTwin
  obtain ⟨tables, merged, bodies⟩ := agrees.exists_tables left right succeeded succeededTwin
  constructor
  · intro agree name isLive var merges
    have reached := left.live_iff.mp isLive
    obtain ⟨b, inside, rfl⟩ : ∃ b ∈ converted.blocks, b.name = name := by
      rw [← mem_names, names]
      exact left.mem_names_of_reaches reached
    obtain ⟨renamed, whole, shared⟩ := bodies b inside reached
    have distinct : (twin.blocks.map Block.name).Nodup := by
      have distinct := right.distinct
      rwa [← namesTwin] at distinct
    have same := List.inj_on_of_nodup_map distinct (agree.bodies b inside ((live _).mpr reached))
      shared rfl
    rw [whole, Block.mk.injEq, List.append_left_inj] at same
    exact Phi.instrs_eq_iff.mp same.2 var ((merged _ var reached).mpr merges)
  · intro types
    refine ⟨by rw [params, paramsTwin, agrees.params], by rw [names, namesTwin, agrees.names], ?_⟩
    intro b inside isLive
    have reached := (live _).mp isLive
    obtain ⟨renamed, whole, shared⟩ := bodies b inside reached
    have same : Phi.instrs tables g.declaredTypes b.name = Phi.instrs tables h.declaredTypes b.name :=
      Phi.instrs_eq_iff.mpr fun var listed =>
        types _ (left.live_iff.mpr reached) var ((merged _ var reached).mp listed)
    rw [whole, same]
    exact shared

end Outcomes

/-- Dead code has a say in the types of merges only. If two graphs agree on their live blocks
and both convert, a live block of the first result is found in the second up to the types of
its merges; and the results agree on their live blocks exactly if every variable that is
merged somewhere is declared with the same type in both graphs, dead assignments included. -/
theorem agreesLive_toSsa_iff (f other : Function) (checkLabels : Bool)
    (g h converted twin : FlowGraph) (config : Config) (built : ofFunction f checkLabels = .ok g)
    (builtOther : ofFunction other checkLabels = .ok h) (agrees : g.AgreesLive h)
    (succeeded : g.toSsa config = .ok converted) (succeededTwin : h.toSsa config = .ok twin) :
    (∀ b ∈ converted.blocks, converted.Live b.name →
      ∃ merges twins renamed, b.instrs = merges ++ renamed ∧
        ⟨b.name, twins ++ renamed⟩ ∈ twin.blocks ∧ (∀ phi ∈ merges, phi.isPhi = true) ∧
        twins.map Instr.untyped = merges.map Instr.untyped) ∧
    (converted.AgreesLive twin ↔
      ∀ name, g.Live name → ∀ var ∈ g.surveyed.phis.image name,
        g.declaredTypes[var]? = h.declaredTypes[var]?) := by
  have sameEntry : h.entry? = g.entry? := by rw [ entry?, entry?, agrees.names]
  cases root : g.entry? with
  | none =>
    rw [toSsa_of_no_entry root] at succeeded
    rw [toSsa_of_no_entry (sameEntry.trans root)] at succeededTwin
    cases succeeded
    cases succeededTwin
    have dead := not_live_of_no_entry root
    exact ⟨fun b _ live => absurd live (dead b.name),
      iff_of_true agrees fun name live => absurd live (dead name)⟩
  | some entry =>
    have left : g.Rooted entry :=
      (wellFormed_ofFunction built).rooted_of_convert root (toSsa_eq_ok.mp succeeded).1
    have right : h.Rooted entry := (wellFormed_ofFunction builtOther).rooted_of_convert
      (sameEntry.trans root) (toSsa_eq_ok.mp succeededTwin).1
    refine ⟨?_, agrees.agreesLive_converted_iff left right succeeded succeededTwin⟩
    intro b changed isLive
    obtain ⟨tables, _, bodies⟩ := agrees.exists_tables left right succeeded succeededTwin
    obtain ⟨renamed, whole, shared⟩ :=
      bodies b changed (((left.toSsa_frame succeeded).2.2 _).mp isLive)
    refine ⟨_, _, renamed, congrArg Block.instrs whole, shared, ?_,
      Phi.map_untyped_instrs tables _ _ b.name⟩
    intro phi member
    obtain ⟨pair, _, rfl⟩ := List.mem_map.mp member
    rfl

/-- Two branches that assign an integer each, a use of it where they meet, and a block behind
the return that nothing reaches. -/
def deadEnd (dead : List Item) : Function where
  name := "main"
  params := [⟨"c", .primitive "bool"⟩]
  body := [
    .instr (.br "c" "left" "right"),
    .label "left",
    .instr (.constant "x" (.primitive "int") (.int 1)),
    .instr (.jmp "join"),
    .label "right",
    .instr (.constant "x" (.primitive "int") (.int 2)),
    .label "join",
    .instr (.effect "print" ["x"]),
    .instr (.ret []),
    .label "dead"] ++ dead

/-- Another assignment, another use and an edge into the live blocks make no difference. -/
theorem agreesLive_toSsa_iff_deadEnd :
    ∃ g h converted twin,
      ofFunction (deadEnd []) true = .ok g ∧
      ofFunction (deadEnd [.instr (.assign "id" "x" (.primitive "int") ["c"]),
        .instr (.effect "print" ["x"]), .instr (.jmp "join")]) true = .ok h ∧
      g.blocks ≠ h.blocks ∧ g.AgreesLive h ∧ g.toSsa {} = .ok converted ∧
      h.toSsa {} = .ok twin ∧ converted.Live "join" ∧ converted.AgreesLive twin := by
  have facts : (ofFunction (deadEnd []) true).toOption.any (fun g =>
      (ofFunction (deadEnd [.instr (.assign "id" "x" (.primitive "int") ["c"]),
        .instr (.effect "print" ["x"]), .instr (.jmp "join")]) true).toOption.any fun h =>
      (g.toSsa {}).toOption.any fun converted => (h.toSsa {}).toOption.any fun _ =>
        g.blocks ≠ h.blocks ∧ g.AgreesLive h ∧ converted.Live "join" ∧
        g.declaredTypes = h.declaredTypes) = true := by decide +kernel
  obtain ⟨g, built, facts⟩ := exists_ok_of_any facts
  obtain ⟨h, builtOther, facts⟩ := exists_ok_of_any facts
  obtain ⟨converted, succeeded, facts⟩ := exists_ok_of_any facts
  obtain ⟨twin, succeededTwin, facts⟩ := exists_ok_of_any facts
  obtain ⟨differ, agrees, live, types⟩ := of_decide_eq_true facts
  have iff := (agreesLive_toSsa_iff _ _ true g h converted twin {} built builtOther agrees succeeded
    succeededTwin).2
  exact ⟨g, h, converted, twin, built, builtOther, differ, agrees, succeeded, succeededTwin, live,
    iff.mpr fun _ _ _ _ => by rw [types]⟩

/-- A dead assignment with another type changes the type of the merge that is reached. -/
theorem deadEnd_leaks :
    ∃ g h converted twin,
      ofFunction (deadEnd []) true = .ok g ∧
      ofFunction (deadEnd [.instr (.constant "x" (.primitive "bool") (.bool true))]) true = .ok h ∧
      g.AgreesLive h ∧ g.toSsa {} = .ok converted ∧ h.toSsa {} = .ok twin ∧
      ¬ converted.AgreesLive twin := by
  have facts : (ofFunction (deadEnd []) true).toOption.any (fun g =>
      (ofFunction (deadEnd [.instr (.constant "x" (.primitive "bool") (.bool true))])
        true).toOption.any fun h =>
      (g.toSsa {}).toOption.any fun converted => (h.toSsa {}).toOption.any fun twin =>
        g.AgreesLive h ∧ ¬ converted.AgreesLive twin) = true := by decide +kernel
  obtain ⟨g, built, facts⟩ := exists_ok_of_any facts
  obtain ⟨h, builtOther, facts⟩ := exists_ok_of_any facts
  obtain ⟨converted, succeeded, facts⟩ := exists_ok_of_any facts
  obtain ⟨twin, succeededTwin, facts⟩ := exists_ok_of_any facts
  obtain ⟨agrees, differ⟩ := of_decide_eq_true facts
  exact ⟨g, h, converted, twin, built, builtOther, agrees, succeeded, succeededTwin, differ⟩

end FlowGraph

end SsaForm
