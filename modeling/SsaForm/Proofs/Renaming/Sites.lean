import SsaForm.Proofs.Relation.Basic
import SsaForm.Proofs.Renaming.Recursion
import SsaForm.Proofs.Renaming.Tree

/-!
# The visits of a renaming

What renaming comes to can be read off the list of its visits. The blocks and the tables of
merges follow from the visits one by one; the numbering runs through the list from its
front, while the scope of a visit comes from the visit to the parent in the tree.
-/

namespace SsaForm.Renaming

theorem find?_eq_some_of_unique {α : Type} {test : α → Bool} {elements : List α} {a : α}
    (member : a ∈ elements) (holds : test a = true)
    (unique : ∀ b ∈ elements, test b = true → b = a) : elements.find? test = some a := by
  cases found : elements.find? test with
  | none => exact absurd holds (List.find?_eq_none.mp found a member)
  | some b => rw [unique b (List.mem_of_find?_eq_some found) (List.find?_some found)]

section Lookup

def siteAt? (sites : List Site) (name : String) : Option Site :=
  sites.find? fun site => site.name = name

variable {sites : List Site} {site : Site} {name : String}

theorem siteAt?_eq_none : siteAt? sites name = none ↔ name ∉ sites.map Site.name := by
  simp [siteAt?]

theorem siteAt?_eq_some (distinct : (sites.map Site.name).Nodup) :
    siteAt? sites name = some site ↔ site ∈ sites ∧ site.name = name := by
  constructor
  · intro found
    exact ⟨List.mem_of_find?_eq_some found, by simpa using List.find?_some found⟩
  · intro listed
    obtain ⟨member, rfl⟩ := listed
    apply find?_eq_some_of_unique member (decide_eq_true rfl)
    intro other inside named
    exact List.inj_on_of_nodup_map distinct inside member (of_decide_eq_true named)

theorem siteAt?_append_of_ne (different : site.name ≠ name) :
    siteAt? (sites ++ [site]) name = siteAt? sites name := by
  simp [siteAt?, List.find?_append, different]

theorem siteAt?_append_self (fresh : site.name ∉ sites.map Site.name) :
    siteAt? (sites ++ [site]) site.name = some site := by
  rw [siteAt?, List.find?_append, ← siteAt?, siteAt?_eq_none.mpr fresh]
  simp

/-- A block as its visit leaves it. -/
def settled (sites : List Site) (b : Block) : Block :=
  ((siteAt? sites b.name).map Site.renamed).getD b

theorem settled_name (b : Block) : (settled sites b).name = b.name := by
  rw [settled]
  cases found : siteAt? sites b.name with
  | none => rfl
  | some site =>
    have named : site.name = b.name := by simpa using List.find?_some found
    exact named

theorem settled_of_not_mem {b : Block} (unvisited : b.name ∉ sites.map Site.name) :
    settled sites b = b := by
  rw [settled, siteAt?_eq_none.mpr unvisited]
  rfl

theorem settled_of_site (distinct : (sites.map Site.name).Nodup) (member : site ∈ sites) :
    settled sites site.block = site.renamed := by
  rw [settled, ← Site.name, (siteAt?_eq_some distinct).mpr ⟨member, rfl⟩]
  rfl

end Lookup

section Feeding

/-- The version of a variable that flows out of a visited block. -/
def Site.outgoing (config : Config) (site : Site) (var : String) : String :=
  (site.exit.current? var).getD config.placeholder

theorem mem_fed {plan : Plan} {name block var : String} :
    (block, var) ∈ fed plan name ↔
      block ∈ plan.successors.image name ∧ var ∈ plan.phis.image block := by
  simp [fed]

theorem nodup_fed (plan : Plan) (name : String) : (fed plan name).Nodup := by
  rw [fed, List.nodup_flatMap]
  constructor
  · intro successor _
    refine (KeySet.nodup_toList _).map ?_
    intro first second equal
    exact (Prod.mk.injEq ..).mp equal |>.2
  · refine (KeySet.nodup_toList _).imp ?_
    intro first second apart pair inFirst inSecond
    obtain ⟨_, _, rfl⟩ := List.mem_map.mp inFirst
    obtain ⟨_, _, equal⟩ := List.mem_map.mp inSecond
    exact apart ((Prod.mk.injEq ..).mp equal).1.symm

theorem operandsOf_addOperand {tables : Phi.Tables} {block var other name : String}
    {operand : String × String} :
    (tables.addOperand block var operand).operandsOf other name =
      tables.operandsOf other name ++ if (block, var) = (other, name) then [operand] else [] := by
  rw [Phi.Tables.operandsOf, Phi.Tables.addOperand, Std.ExtTreeMap.getD_insert]
  by_cases sameBlock : block = other
  · subst sameBlock
    by_cases sameVar : var = name
    · subst sameVar
      simp [Phi.Tables.operandsOf]
    · simp [sameVar, Phi.Tables.operandsOf, Std.ExtTreeMap.getD_insert]
  · simp [sameBlock, Phi.Tables.operandsOf]

theorem outflow_eq_ok {config : Config} {scope : Versions} {name var version : String} :
    outflow config scope name var = .ok version ↔
      (config.unassigned = .placeholder ∨ (scope.current? var).isSome) ∧
        version = (scope.current? var).getD config.placeholder := by
  rw [outflow]
  cases scope.current? var with
  | some current => simp [eq_comm]
  | none =>
    cases config.unassigned with
    | placeholder => simp [eq_comm]
    | refuse => simp

variable {config : Config} {scope : Versions} {name : String} {pairs : List (String × String)}
  {tables after : Phi.Tables}

theorem feed_dests (fedTables : feed config scope name pairs tables = .ok after) :
    after.dests = tables.dests := by
  induction pairs generalizing tables with
  | nil =>
    cases fedTables
    rfl
  | cons pair rest inductionHypothesis =>
    rw [feed] at fedTables
    split at fedTables
    next => cases fedTables
    next =>
      rw [inductionHypothesis fedTables]
      rfl

/-- Each fed merge gets one operand, and the others none. -/
theorem feed_operands (distinct : pairs.Nodup)
    (fedTables : feed config scope name pairs tables = .ok after) (block var : String) :
    after.operandsOf block var = tables.operandsOf block var ++
      if (block, var) ∈ pairs then [(name, (scope.current? var).getD config.placeholder)]
      else [] := by
  induction pairs generalizing tables with
  | nil =>
    cases fedTables
    simp
  | cons pair rest inductionHypothesis =>
    obtain ⟨successor, merged⟩ := pair
    rw [feed] at fedTables
    split at fedTables
    next => cases fedTables
    next version flows =>
      have value := (outflow_eq_ok.mp flows).2
      rw [inductionHypothesis distinct.of_cons fedTables, operandsOf_addOperand, List.append_assoc]
      by_cases same : (successor, merged) = (block, var)
      · cases same
        simp [List.nodup_cons.mp distinct, value]
      · simp [same, List.mem_cons, Ne.symm same]

theorem feed_flows (fedTables : feed config scope name pairs tables = .ok after) :
    ∀ pair ∈ pairs, config.unassigned = .placeholder ∨ (scope.current? pair.2).isSome := by
  induction pairs generalizing tables with
  | nil =>
    intro pair member
    exact absurd member List.not_mem_nil
  | cons first rest inductionHypothesis =>
    rw [feed] at fedTables
    split at fedTables
    next => cases fedTables
    next version flows =>
      intro pair member
      rcases List.mem_cons.mp member with rfl | later
      · exact (outflow_eq_ok.mp flows).1
      · exact inductionHypothesis fedTables pair later

theorem feed_succeeds (lenient : config.unassigned = .placeholder) (scope : Versions)
    (name : String) (pairs : List (String × String)) (tables : Phi.Tables) :
    ∃ after, feed config scope name pairs tables = .ok after := by
  induction pairs generalizing tables with
  | nil => exact ⟨tables, rfl⟩
  | cons pair rest inductionHypothesis =>
    have flows : outflow config scope name pair.2 =
        .ok ((scope.current? pair.2).getD config.placeholder) :=
      outflow_eq_ok.mpr ⟨.inl lenient, rfl⟩
    rw [feed, flows]
    exact inductionHypothesis _

/-- The operands that visits hand to the merge of a variable in a block. -/
def incoming (plan : Plan) (sites : List Site) (block var : String) : List (String × String) :=
  sites.flatMap fun site =>
    if (block, var) ∈ fed plan site.name then [(site.name, site.outgoing plan.config var)] else []

theorem mem_incoming {plan : Plan} {sites : List Site} {block var : String}
    {operand : String × String} :
    operand ∈ incoming plan sites block var ↔
      ∃ site ∈ sites, (block, var) ∈ fed plan site.name ∧
        operand = (site.name, site.outgoing plan.config var) := by
  rw [incoming, List.mem_flatMap]
  constructor
  · intro found
    obtain ⟨site, member, listed⟩ := found
    split at listed
    next feeds => exact ⟨site, member, feeds, List.mem_singleton.mp listed⟩
    next => exact absurd listed List.not_mem_nil
  · intro found
    obtain ⟨site, member, feeds, rfl⟩ := found
    refine ⟨site, member, ?_⟩
    rw [if_pos feeds]
    exact List.mem_singleton_self _

theorem map_fst_incoming {plan : Plan} {sites : List Site} {block var : String}
    (merges : var ∈ plan.phis.image block) :
    (incoming plan sites block var).map Prod.fst =
      (sites.map Site.name).filter fun name => block ∈ plan.successors.image name := by
  unfold incoming
  induction sites with
  | nil => rfl
  | cons site rest inductionHypothesis =>
    rw [List.flatMap_cons, List.map_append, inductionHypothesis, List.map_cons, List.filter_cons]
    by_cases related : block ∈ plan.successors.image site.name
    · simp [mem_fed, related, merges]
    · simp [mem_fed, related]

end Feeding

/-- The state of a walk after given visits, as far as it does not concern the scope. -/
structure Reflects (plan : Plan) (blocks : List Block) (sites : List Site) (state : State) :
    Prop where
  blocks : state.blocks = blocks.map (settled sites)
  dests : ∀ name : String, state.tables.dests[name]? =
    (siteAt? sites name).map fun site => .ofList site.dests
  operands : ∀ block var, state.tables.operandsOf block var = incoming plan sites block var
  flows : ∀ site ∈ sites, ∀ pair ∈ fed plan site.name,
    plan.config.unassigned = .placeholder ∨ (site.exit.current? pair.2).isSome

theorem reflects_start (plan : Plan) (blocks : List Block) (versions : Versions) :
    Reflects plan blocks [] ⟨blocks, versions, {}, []⟩ where
  blocks := (List.map_id blocks).symm
  dests := by
    intro name
    rfl
  operands := by
    intro block var
    rfl
  flows := by
    intro site member
    exact absurd member List.not_mem_nil

theorem Reflects.map_name {plan : Plan} {blocks : List Block} {sites : List Site} {state : State}
    (reflects : Reflects plan blocks sites state) :
    state.blocks.map Block.name = blocks.map Block.name := by
  rw [reflects.blocks, List.map_map]
  apply List.map_congr_left
  intro b _
  exact settled_name b

/-- Replacing the one block with a name. -/
theorem append_cons_eq_map {before behind : List Block} {found new : Block}
    (distinct : ((before ++ found :: behind).map Block.name).Nodup) :
    before ++ new :: behind =
      (before ++ found :: behind).map fun b => if b.name = found.name then new else b := by
  have kept : ∀ {blocks : List Block}, (∀ b ∈ blocks, b.name ≠ found.name) →
      (blocks.map fun b => if b.name = found.name then new else b) = blocks := by
    intro blocks others
    refine (List.map_congr_left ?_).trans (List.map_id blocks)
    intro b member
    exact if_neg (others b member)
  rw [List.map_append, List.map_cons, List.nodup_append, List.nodup_cons] at distinct
  obtain ⟨_, ⟨lastOne, _⟩, apart⟩ := distinct
  have first : ∀ b ∈ before, b.name ≠ found.name := fun b member =>
    apart b.name (List.mem_map_of_mem member) found.name List.mem_cons_self
  have last : ∀ b ∈ behind, b.name ≠ found.name := by
    intro b member equal
    exact lastOne (List.mem_map.mpr ⟨b, member, equal⟩)
  rw [List.map_append, List.map_cons, kept first, kept last, if_pos rfl]

/-- The blocks behind a visit. No visit has changed the visited block before, since none bears
its name. -/
theorem Reflects.replaced {plan : Plan} {blocks before behind : List Block} {sites : List Site}
    {state : State} {name : String} {block : Block} (reflects : Reflects plan blocks sites state)
    (distinct : (blocks.map Block.name).Nodup) (fresh : name ∉ sites.map Site.name)
    (parts : splitLast? name state.blocks = some (before, block, behind)) {site : Site}
    (visits : site.block = block) :
    block ∈ blocks ∧ block.name = name ∧
      before ++ site.renamed :: behind = blocks.map (settled (sites ++ [site])) := by
  subst visits
  obtain ⟨whole, rfl, _⟩ := splitLast?_eq_some parts
  have distinctNow : ((before ++ site.block :: behind).map Block.name).Nodup := by
    rw [← whole, reflects.map_name]
    exact distinct
  refine ⟨?_, rfl, ?_⟩
  · have member : site.block ∈ state.blocks := by
      rw [whole]
      exact List.mem_append_right _ List.mem_cons_self
    rw [reflects.blocks, List.mem_map] at member
    obtain ⟨b, inside, equal⟩ := member
    rw [← equal, settled_name] at fresh
    rwa [← equal, settled_of_not_mem fresh]
  · rw [append_cons_eq_map distinctNow, ← whole, reflects.blocks, List.map_map]
    apply List.map_congr_left
    intro b _
    simp only [Function.comp_apply, settled_name]
    by_cases same : b.name = site.block.name
    · rw [if_pos same, settled, same, ← Site.name, siteAt?_append_self fresh]
      rfl
    · rw [if_neg same, settled, settled, siteAt?_append_of_ne (Ne.symm same)]

/-- What one visit adds. -/
theorem Reflects.visit {plan : Plan} {blocks : List Block} {sites : List Site}
    {state after : State} {name : String} {made : List String}
    (reflects : Reflects plan blocks sites state) (distinct : (blocks.map Block.name).Nodup)
    (fresh : name ∉ sites.map Site.name)
    (visited : Renaming.visit plan name state = .ok (after, made)) :
    ∃ block ∈ blocks, block.name = name ∧
      Reflects plan blocks (sites ++ [plan.siteOf block state.versions]) after ∧
      after.versions = (plan.siteOf block state.versions).exit := by
  obtain ⟨before, block, behind, tables, parts, fedTables, rfl, _⟩ := visit_eq_ok.mp visited
  have visits : (plan.siteOf block state.versions).block = block := rfl
  obtain ⟨original, rfl, replaced⟩ := reflects.replaced distinct fresh parts visits
  refine ⟨block, original, rfl, ?_, rfl⟩
  generalize visit : plan.siteOf block state.versions = site at fedTables replaced ⊢
  have named : site.name = block.name := by rw [← visit]; rfl
  rw [← named] at fresh
  constructor
  · exact replaced
  · intro other
    rw [feed_dests fedTables, Phi.Tables.setDests, Std.ExtTreeMap.getElem?_insert]
    by_cases same : block.name = other
    · subst same
      rw [← named, siteAt?_append_self fresh]
      simp
    · have apart : site.name ≠ other := by
        rw [named]
        exact same
      rw [siteAt?_append_of_ne apart, ← reflects.dests]
      simp [same]
  · intro other var
    rw [feed_operands (nodup_fed plan block.name) fedTables, incoming, List.flatMap_append,
      List.flatMap_singleton, named]
    exact congrArg (· ++ _) (reflects.operands other var)
  · intro other member
    rcases List.mem_append.mp member with earlier | last
    · exact reflects.flows other earlier
    · rw [List.mem_singleton.mp last, named]
      exact feed_flows fedTables

/-- The visits to trees with given roots between two scopes. The numbering passes through
them in order; each visit finds the scope in front of the trees or that of its parent. -/
structure Visits (plan : Plan) (blocks : List Block) (tree : Relation String)
    (roots : List String) (before after : Versions) (sites : List Site) : Prop where
  sourced : ∀ site ∈ sites, site.block ∈ blocks
  merged : ∀ site ∈ sites, site.merged = (plan.phis.image site.name).toList
  nested : ∀ site ∈ sites,
    (site.name ∈ roots ∧ site.scope.inScope = before.inScope) ∨
      ∃ parent ∈ sites, site.name ∈ tree.image parent.name ∧
        site.scope.inScope = parent.exit.inScope
  versions : sites.flatMap Site.versions = before.numbered (sites.flatMap Site.made)
  counters : after.counters = (before.extend (sites.flatMap Site.made)).counters

namespace Visits

variable {plan : Plan} {blocks : List Block} {tree : Relation String}

theorem nil (versions : Versions) : Visits plan blocks tree [] versions versions [] where
  sourced := fun _ member => absurd member List.not_mem_nil
  merged := fun _ member => absurd member List.not_mem_nil
  nested := fun _ member => absurd member List.not_mem_nil
  versions := rfl
  counters := rfl

theorem append {roots others : List String} {before middle after : Versions}
    {first second : List Site} (left : Visits plan blocks tree roots before middle first)
    (right : Visits plan blocks tree others middle after second)
    (restored : middle.inScope = before.inScope) :
    Visits plan blocks tree (roots ++ others) before after (first ++ second) where
  sourced := by
    intro site member
    rcases List.mem_append.mp member with inFirst | inSecond
    · exact left.sourced site inFirst
    · exact right.sourced site inSecond
  merged := by
    intro site member
    rcases List.mem_append.mp member with inFirst | inSecond
    · exact left.merged site inFirst
    · exact right.merged site inSecond
  nested := by
    intro site member
    rcases List.mem_append.mp member with inFirst | inSecond
    · rcases left.nested site inFirst with ⟨isRoot, scope⟩ | ⟨parent, inside, related, scope⟩
      · exact .inl ⟨List.mem_append_left _ isRoot, scope⟩
      · exact .inr ⟨parent, List.mem_append_left _ inside, related, scope⟩
    · rcases right.nested site inSecond with ⟨isRoot, scope⟩ | ⟨parent, inside, related, scope⟩
      · exact .inl ⟨List.mem_append_right _ isRoot, scope.trans restored⟩
      · exact .inr ⟨parent, List.mem_append_right _ inside, related, scope⟩
  versions := by
    rw [List.flatMap_append, List.flatMap_append, left.versions, right.versions,
      Versions.numbered_append, Versions.numbered_congr left.counters]
  counters := by
    rw [List.flatMap_append, Versions.extend_append, right.counters]
    exact Versions.counters_extend_congr left.counters

theorem node {roots : List String} {block : Block} {scope last after : Versions}
    {below : List Site} (original : block ∈ blocks)
    (inner : Visits plan blocks tree roots (plan.siteOf block scope).exit last below)
    (related : ∀ k ∈ roots, k ∈ tree.image block.name) (kept : after.counters = last.counters) :
    Visits plan blocks tree [block.name] scope after (plan.siteOf block scope :: below) where
  sourced := by
    intro site member
    rcases List.mem_cons.mp member with rfl | later
    · exact original
    · exact inner.sourced site later
  merged := by
    intro site member
    rcases List.mem_cons.mp member with rfl | later
    · rfl
    · exact inner.merged site later
  nested := by
    intro site member
    rcases List.mem_cons.mp member with rfl | later
    · exact .inl ⟨List.mem_cons_self, rfl⟩
    · rcases inner.nested site later with ⟨isRoot, inScope⟩ | ⟨parent, inside, child, inScope⟩
      · exact .inr ⟨_, List.mem_cons_self, related site.name isRoot, inScope⟩
      · exact .inr ⟨parent, List.mem_cons_of_mem _ inside, child, inScope⟩
  versions := by
    rw [List.flatMap_cons, List.flatMap_cons, inner.versions, Versions.numbered_append,
      Site.exit_eq]
    rfl
  counters := by
    rw [List.flatMap_cons, Versions.extend_append, kept, inner.counters, Site.exit_eq]
    rfl

end Visits

mutual

/-- A finished recursion has visited every name of the tree in order. -/
theorem visitTree_visits {plan : Plan} {blocks : List Block}
    (distinct : (blocks.map Block.name).Nodup) {tree : Relation String} (root : VisitTree)
    (within : root.Within tree) {sites : List Site} {state after : State}
    (reflects : Reflects plan blocks sites state)
    (fresh : (sites.map Site.name ++ root.names).Nodup)
    (visited : visitTree plan state root = .ok after) :
    ∃ more, Reflects plan blocks (sites ++ more) after ∧ more.map Site.name = root.names ∧
      Visits plan blocks tree [root.root] state.versions after.versions more := by
  cases root with
  | node name children =>
    obtain ⟨related, allWithin⟩ := within
    obtain ⟨inside, made, last, here, below, rfl⟩ := visitTree_eq_ok.mp visited
    rw [VisitTree.names] at fresh
    have first : name ∉ sites.map Site.name := by
      intro earlier
      exact (List.nodup_append.mp fresh).2.2 name earlier name List.mem_cons_self rfl
    obtain ⟨block, original, rfl, reflectsInside, exits⟩ := reflects.visit distinct first here
    have freshBelow :
        ((sites ++ [plan.siteOf block state.versions]).map Site.name ++
          VisitTree.forestNames children).Nodup := by
      rw [List.map_append, List.append_assoc]
      exact fresh
    obtain ⟨more, reflectsAll, names, visits⟩ :=
      visitForest_visits distinct children allWithin reflectsInside freshBelow below
    refine ⟨plan.siteOf block state.versions :: more, ?_, ?_, ?_⟩
    · rw [List.append_assoc] at reflectsAll
      exact ⟨reflectsAll.blocks, reflectsAll.dests, reflectsAll.operands, reflectsAll.flows⟩
    · rw [List.map_cons, names, VisitTree.names]
      rfl
    · rw [exits] at visits
      refine Visits.node original visits ?_ rfl
      intro k isRoot
      obtain ⟨child, member, rfl⟩ := List.mem_map.mp isRoot
      exact related child member

theorem visitForest_visits {plan : Plan} {blocks : List Block}
    (distinct : (blocks.map Block.name).Nodup) {tree : Relation String} (forest : List VisitTree)
    (within : ∀ root ∈ forest, root.Within tree) {sites : List Site} {state after : State}
    (reflects : Reflects plan blocks sites state)
    (fresh : (sites.map Site.name ++ VisitTree.forestNames forest).Nodup)
    (visited : visitForest plan state forest = .ok after) :
    ∃ more, Reflects plan blocks (sites ++ more) after ∧
      more.map Site.name = VisitTree.forestNames forest ∧
      Visits plan blocks tree (forest.map VisitTree.root) state.versions after.versions more := by
  cases forest with
  | nil =>
    rw [visitForest] at visited
    cases visited
    refine ⟨[], ?_, rfl, .nil _⟩
    rwa [List.append_nil]
  | cons root rest =>
    obtain ⟨middle, here, others⟩ := visitForest_cons_eq_ok.mp visited
    obtain ⟨rootWithin, restWithin⟩ := List.forall_mem_cons.mp within
    rw [VisitTree.forestNames, ← List.append_assoc] at fresh
    obtain ⟨first, reflectsFirst, names, visits⟩ :=
      visitTree_visits distinct root rootWithin reflects (List.nodup_append.mp fresh).1 here
    have freshRest : ((sites ++ first).map Site.name ++ VisitTree.forestNames rest).Nodup := by
      rw [List.map_append, names]
      exact fresh
    obtain ⟨second, reflectsAll, restNames, restVisits⟩ :=
      visitForest_visits distinct rest restWithin reflectsFirst freshRest others
    refine ⟨first ++ second, ?_, ?_, visits.append restVisits (visitTree_inScope here)⟩
    · rwa [← List.append_assoc]
    · rw [List.map_append, names, restNames, VisitTree.forestNames]

end

section Success

variable {plan : Plan}

theorem visit_succeeds (lenient : plan.config.unassigned = .placeholder) {name : String}
    {state : State} (named : name ∈ state.blocks.map Block.name) :
    ∃ after made, visit plan name state = .ok (after, made) ∧
      after.blocks.map Block.name = state.blocks.map Block.name := by
  cases parts : splitLast? name state.blocks with
  | none =>
    obtain ⟨b, member, equal⟩ := List.mem_map.mp named
    exact absurd equal (splitLast?_eq_none.mp parts b member)
  | some triple =>
    obtain ⟨before, block, behind⟩ := triple
    obtain ⟨tables, fedTables⟩ := feed_succeeds lenient (plan.siteOf block state.versions).exit
      name (fed plan name)
      (state.tables.setDests name (.ofList (plan.siteOf block state.versions).dests))
    refine ⟨_, _, visit_eq_ok.mpr ⟨before, block, behind, tables, parts, fedTables, rfl, rfl⟩, ?_⟩
    rw [(splitLast?_eq_some parts).1]
    simp [Site.renamed, Plan.siteOf]

mutual

/-- With a placeholder at hand the recursion gets through every tree of known blocks. -/
theorem visitTree_succeeds (lenient : plan.config.unassigned = .placeholder) (root : VisitTree)
    {state : State} (named : ∀ name ∈ root.names, name ∈ state.blocks.map Block.name) :
    ∃ after, visitTree plan state root = .ok after ∧
      after.blocks.map Block.name = state.blocks.map Block.name := by
  cases root with
  | node name children =>
    rw [VisitTree.names, List.forall_mem_cons] at named
    obtain ⟨inside, made, here, kept⟩ := visit_succeeds lenient named.1
    have namedBelow : ∀ k ∈ VisitTree.forestNames children, k ∈ inside.blocks.map Block.name := by
      rw [kept]
      exact named.2
    obtain ⟨last, below, keptBelow⟩ := visitForest_succeeds lenient children namedBelow
    exact ⟨_, visitTree_eq_ok.mpr ⟨inside, made, last, here, below, rfl⟩, keptBelow.trans kept⟩

theorem visitForest_succeeds (lenient : plan.config.unassigned = .placeholder)
    (forest : List VisitTree) {state : State}
    (named : ∀ name ∈ VisitTree.forestNames forest, name ∈ state.blocks.map Block.name) :
    ∃ after, visitForest plan state forest = .ok after ∧
      after.blocks.map Block.name = state.blocks.map Block.name := by
  cases forest with
  | nil => exact ⟨state, rfl, rfl⟩
  | cons root rest =>
    rw [VisitTree.forestNames, List.forall_mem_append] at named
    obtain ⟨middle, here, kept⟩ := visitTree_succeeds lenient root named.1
    have namedRest : ∀ k ∈ VisitTree.forestNames rest, k ∈ middle.blocks.map Block.name := by
      rw [kept]
      exact named.2
    obtain ⟨last, others, keptRest⟩ := visitForest_succeeds lenient rest namedRest
    exact ⟨last, visitForest_cons_eq_ok.mpr ⟨middle, here, others⟩, keptRest.trans kept⟩

end

end Success

end SsaForm.Renaming
