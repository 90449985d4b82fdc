import SsaForm.Proofs.Renaming.Sites

/-!
# Walks that a fault ends

A visit meets a fault when it has renamed its block and hands a version on that is not there.
The walk ends at once. So it has visited the first names of its tree, in order, and the block
that the fault names is the last of them. A walk with a placeholder makes the same visits up to
there, and then it hands the placeholder on.
-/

namespace SsaForm.Renaming

/-- Versions are handed on until one is missing and must not be. -/
theorem feed_eq_error {config : Config} {scope : Versions} {name : String}
    {pairs : List (String × String)} {tables : Phi.Tables} {fault : Fault}
    (failed : feed config scope name pairs tables = .error fault) :
    ∃ pair ∈ pairs, fault = .unassigned pair.2 name ∧ config.unassigned = .refuse ∧
      scope.current? pair.2 = none := by
  induction pairs generalizing tables with
  | nil => cases failed
  | cons pair rest inductionHypothesis =>
    rw [feed] at failed
    split at failed
    next missing =>
      refine ⟨pair, List.mem_cons_self, ?_⟩
      rw [outflow] at missing
      cases failed
      split at missing
      next => cases missing
      next => cases missing
      next noVersion refused =>
        cases missing
        exact ⟨rfl, refused, noVersion⟩
    next =>
      obtain ⟨found, later, facts⟩ := inductionHypothesis failed
      exact ⟨found, List.mem_cons_of_mem _ later, facts⟩

/-- What a visit leaves when it meets a fault. -/
theorem visit_eq_error {plan : Plan} {name : String} {state : State} {stop : Stop}
    (named : name ∈ state.blocks.map Block.name) (stopped : visit plan name state = .error stop) :
    ∃ before block behind pair, splitLast? name state.blocks = some (before, block, behind) ∧
      pair ∈ fed plan name ∧ plan.config.unassigned = .refuse ∧
      (plan.siteOf block state.versions).exit.current? pair.2 = none ∧
      stop.fault = .unassigned pair.2 name ∧
      stop.blocks = before ++ (plan.siteOf block state.versions).renamed :: behind := by
  cases parts : splitLast? name state.blocks with
  | none =>
    obtain ⟨b, member, equal⟩ := List.mem_map.mp named
    exact absurd equal (splitLast?_eq_none.mp parts b member)
  | some triple =>
    obtain ⟨before, block, behind⟩ := triple
    rw [visit_of_split parts] at stopped
    dsimp only at stopped
    split at stopped
    next fault failed =>
      cases stopped
      obtain ⟨pair, listed, rfl, refused, missing⟩ := feed_eq_error failed
      exact ⟨before, block, behind, pair, rfl, listed, refused, missing, rfl, rfl⟩
    next => cases stopped

/-- What a walk has come to by given visits: it is done, or the last of them has met a fault
and further names are left. -/
inductive Leaves (plan : Plan) (blocks : List Block) (sites : List Site) :
    List String → Except Stop State → Prop where
  | finished {state : State} (reflects : Reflects plan blocks sites state) :
    Leaves plan blocks sites [] (.ok state)
  | stopped {before : List Site} {last : Site} {rest : List String} {stop : Stop} {var : String}
    (whole : sites = before ++ [last]) (renamed : stop.blocks = blocks.map (settled sites))
    (fault : stop.fault = .unassigned var last.name) : Leaves plan blocks sites rest (.error stop)

theorem Reflects.restore {plan : Plan} {blocks : List Block} {sites : List Site} {state : State}
    (reflects : Reflects plan blocks sites state) (versions : Versions) :
    Reflects plan blocks sites (state.restore versions) :=
  ⟨reflects.blocks, reflects.dests, reflects.operands, reflects.flows⟩

theorem Reflects.visit_leaves {plan : Plan} {blocks : List Block} {sites : List Site}
    {state : State} {name : String} {stop : Stop} (reflects : Reflects plan blocks sites state)
    (distinct : (blocks.map Block.name).Nodup) (fresh : name ∉ sites.map Site.name)
    (named : name ∈ blocks.map Block.name)
    (stopped : Renaming.visit plan name state = .error stop) (rest : List String) :
    ∃ block ∈ blocks, block.name = name ∧
      Leaves plan blocks (sites ++ [plan.siteOf block state.versions]) rest (.error stop) := by
  rw [← reflects.map_name] at named
  obtain ⟨before, block, behind, pair, parts, _, _, _, fault, renamed⟩ :=
    visit_eq_error named stopped
  have visits : (plan.siteOf block state.versions).block = block := rfl
  obtain ⟨original, rfl, replaced⟩ := reflects.replaced distinct fresh parts visits
  exact ⟨block, original, rfl, .stopped rfl (renamed.trans replaced) fault⟩

/-- A property of scopes that new versions keep and that does not depend on the numbering. -/
structure ScopeInvariant (invariant : Versions → Prop) : Prop where
  extend : ∀ {scope : Versions} (vars : List String), invariant scope →
    invariant (scope.extend vars)
  congr : ∀ {scope other : Versions}, other.inScope = scope.inScope → invariant scope →
    invariant other

section Walk

variable {plan : Plan} {blocks : List Block} {invariant : Versions → Prop}

mutual

/-- A walk visits the names of its tree in order until it is done or meets a fault. An
invariant of scopes holds of the scope of every visit. -/
theorem visitTree_leaves (distinct : (blocks.map Block.name).Nodup)
    (kept : ScopeInvariant invariant) (root : VisitTree) {sites : List Site} {state : State}
    (reflects : Reflects plan blocks sites state)
    (fresh : (sites.map Site.name ++ root.names).Nodup)
    (named : ∀ name ∈ root.names, name ∈ blocks.map Block.name)
    (holds : invariant state.versions) :
    ∃ passed rest, root.names = passed.map Site.name ++ rest ∧
      (∀ site ∈ passed, site.block ∈ blocks ∧ invariant site.scope) ∧
      Leaves plan blocks (sites ++ passed) rest (visitTree plan state root) := by
  cases root with
  | node name children =>
    rw [VisitTree.names] at fresh named ⊢
    obtain ⟨known, knownBelow⟩ := List.forall_mem_cons.mp named
    have first : name ∉ sites.map Site.name := by
      intro earlier
      exact (List.nodup_append.mp fresh).2.2 name earlier name List.mem_cons_self rfl
    rw [visitTree]
    cases visited : visit plan name state with
    | error stop =>
      -- The fault stands behind the renaming of the block, so the block counts as visited.
      obtain ⟨block, original, rfl, leaves⟩ :=
        reflects.visit_leaves distinct first known visited (VisitTree.forestNames children)
      refine ⟨[plan.siteOf block state.versions], VisitTree.forestNames children, rfl, ?_, leaves⟩
      intro site member
      cases List.mem_singleton.mp member
      exact ⟨original, holds⟩
    | ok pair =>
      obtain ⟨inside, made⟩ := pair
      obtain ⟨block, original, rfl, reflectsInside, exits⟩ := reflects.visit distinct first visited
      have freshBelow :
          ((sites ++ [plan.siteOf block state.versions]).map Site.name ++
            VisitTree.forestNames children).Nodup := by
        rw [List.map_append, List.append_assoc]
        exact fresh
      have holdsInside : invariant inside.versions := by
        rw [exits, Site.exit_eq]
        exact kept.extend _ holds
      obtain ⟨passed, rest, names, sound, leaves⟩ :=
        visitForest_leaves distinct kept children reflectsInside freshBelow knownBelow holdsInside
      refine ⟨plan.siteOf block state.versions :: passed, rest, ?_, ?_, ?_⟩
      · rw [names]
        rfl
      · exact List.forall_mem_cons.mpr ⟨⟨original, holds⟩, sound⟩
      · rw [List.append_assoc] at leaves
        dsimp only
        generalize visitForest plan inside children = outcome at leaves ⊢
        cases leaves with
        | finished reflectsAll => exact .finished (reflectsAll.restore state.versions)
        | stopped whole renamed fault => exact .stopped whole renamed fault

theorem visitForest_leaves (distinct : (blocks.map Block.name).Nodup)
    (kept : ScopeInvariant invariant) (forest : List VisitTree) {sites : List Site} {state : State}
    (reflects : Reflects plan blocks sites state)
    (fresh : (sites.map Site.name ++ VisitTree.forestNames forest).Nodup)
    (named : ∀ name ∈ VisitTree.forestNames forest, name ∈ blocks.map Block.name)
    (holds : invariant state.versions) :
    ∃ passed rest, VisitTree.forestNames forest = passed.map Site.name ++ rest ∧
      (∀ site ∈ passed, site.block ∈ blocks ∧ invariant site.scope) ∧
      Leaves plan blocks (sites ++ passed) rest (visitForest plan state forest) := by
  cases forest with
  | nil =>
    refine ⟨[], [], rfl, fun _ member => absurd member List.not_mem_nil, ?_⟩
    rw [List.append_nil]
    exact .finished reflects
  | cons root others =>
    rw [VisitTree.forestNames] at fresh named ⊢
    rw [← List.append_assoc] at fresh
    obtain ⟨knownRoot, knownRest⟩ := List.forall_mem_append.mp named
    obtain ⟨first, rest, names, sound, leaves⟩ := visitTree_leaves distinct kept root reflects
      (List.nodup_append.mp fresh).1 knownRoot holds
    rw [visitForest]
    cases visited : visitTree plan state root with
    | error stop =>
      rw [visited] at leaves
      refine ⟨first, rest ++ VisitTree.forestNames others, ?_, sound, ?_⟩
      · rw [names, List.append_assoc]
      · cases leaves with
        | stopped whole renamed fault => exact .stopped whole renamed fault
    | ok middle =>
      rw [visited] at leaves
      cases leaves with
      | finished reflectsFirst =>
        rw [List.append_nil] at names
        have freshRest : ((sites ++ first).map Site.name ++ VisitTree.forestNames others).Nodup := by
          rw [List.map_append, ← names]
          exact fresh
        obtain ⟨second, left, restNames, soundRest, leavesRest⟩ :=
          visitForest_leaves distinct kept others reflectsFirst freshRest knownRest
            (kept.congr (visitTree_inScope visited) holds)
        refine ⟨first ++ second, left, ?_, List.forall_mem_append.mpr ⟨sound, soundRest⟩, ?_⟩
        · rw [names, restNames, List.map_append, List.append_assoc]
        · rwa [← List.append_assoc]

end

end Walk

section Policies

/-- The same plan with other settings. -/
def Plan.under (plan : Plan) (config : Config) : Plan :=
  { plan with config }

variable {plan : Plan} {config : Config} {name : String} {state : State}

theorem feed_of_refuse {strict : Config} {scope : Versions} {pairs : List (String × String)}
    {tables after : Phi.Tables} (refuses : strict.unassigned = .refuse)
    (fedTables : feed strict scope name pairs tables = .ok after) :
    feed config scope name pairs tables = .ok after := by
  induction pairs generalizing tables with
  | nil => exact fedTables
  | cons pair rest inductionHypothesis =>
    rw [feed] at fedTables ⊢
    split at fedTables
    next => cases fedTables
    next version flows =>
      obtain ⟨handled, rfl⟩ := outflow_eq_ok.mp flows
      have assigned : (scope.current? pair.2).isSome := handled.resolve_left (by simp [refuses])
      obtain ⟨current, found⟩ := Option.isSome_iff_exists.mp assigned
      have same : outflow config scope name pair.2 = .ok current :=
        outflow_eq_ok.mpr ⟨.inr assigned, by simp [found]⟩
      rw [same]
      rw [found] at fedTables
      exact inductionHypothesis fedTables

/-- A visit that succeeds though nothing may stand in for a version does not depend on the
settings. -/
theorem visit_of_refuse {result : State × List String} (refuses : plan.config.unassigned = .refuse)
    (visited : visit plan name state = .ok result) :
    visit (plan.under config) name state = .ok result := by
  obtain ⟨before, block, behind, tables, parts, fedTables, after, made⟩ := visit_eq_ok.mp visited
  exact visit_eq_ok.mpr
    ⟨before, block, behind, tables, parts, feed_of_refuse refuses fedTables, after, made⟩

theorem visit_operands {after : State} {made : List String}
    (visited : visit plan name state = .ok (after, made)) (block var : String) :
    state.tables.operandsOf block var ⊆ after.tables.operandsOf block var := by
  obtain ⟨_, _, _, tables, _, fedTables, rfl, _⟩ := visit_eq_ok.mp visited
  dsimp only
  rw [feed_operands (nodup_fed plan name) fedTables]
  exact List.subset_append_left _ _

mutual

/-- Operands are not taken back. -/
theorem visitTree_operands {plan : Plan} {state after : State} (root : VisitTree)
    (visited : visitTree plan state root = .ok after) (block var : String) :
    state.tables.operandsOf block var ⊆ after.tables.operandsOf block var := by
  cases root with
  | node name children =>
    obtain ⟨inside, made, last, here, below, rfl⟩ := visitTree_eq_ok.mp visited
    exact List.Subset.trans (visit_operands here block var)
      (visitForest_operands children below block var)

theorem visitForest_operands {plan : Plan} {state after : State} (forest : List VisitTree)
    (visited : visitForest plan state forest = .ok after) (block var : String) :
    state.tables.operandsOf block var ⊆ after.tables.operandsOf block var := by
  cases forest with
  | nil =>
    rw [visitForest] at visited
    cases visited
    exact List.Subset.refl _
  | cons root rest =>
    obtain ⟨middle, here, others⟩ := visitForest_cons_eq_ok.mp visited
    exact List.Subset.trans (visitTree_operands root here block var)
      (visitForest_operands rest others block var)

end

/-- What a strict walk and one with a placeholder come to: to the same, or the strict one has
met a fault where the other has handed its placeholder on. -/
inductive Accompanies (plan : Plan) (placeholder : String) :
    Except Stop State → Except Stop State → Prop where
  | through (state : State) : Accompanies plan placeholder (.ok state) (.ok state)
  | beyond {stop : Stop} {after : State} {successor var name : String}
    (fault : stop.fault = .unassigned var name) (feeds : (successor, var) ∈ fed plan name)
    (stands : (name, placeholder) ∈ after.tables.operandsOf successor var) :
    Accompanies plan placeholder (.error stop) (.ok after)

/-- Where a strict visit meets a fault the placeholder stands in. -/
theorem visit_beyond {stop : Stop} {inside : State} {made : List String}
    (named : name ∈ state.blocks.map Block.name) (stopped : visit plan name state = .error stop)
    (visited : visit (plan.under config) name state = .ok (inside, made)) :
    ∃ successor var, stop.fault = .unassigned var name ∧ (successor, var) ∈ fed plan name ∧
      (name, config.placeholder) ∈ inside.tables.operandsOf successor var := by
  obtain ⟨before, block, behind, pair, parts, feeds, _, missing, fault, _⟩ :=
    visit_eq_error named stopped
  obtain ⟨_, _, _, tables, sameParts, fedTables, rfl, _⟩ := visit_eq_ok.mp visited
  cases parts.symm.trans sameParts
  refine ⟨pair.1, pair.2, fault, feeds, ?_⟩
  have operands := feed_operands (nodup_fed _ name) fedTables pair.1 pair.2
  have missingThere : ((plan.under config).siteOf block state.versions).exit.current? pair.2 =
      none := missing
  have feedsThere : (pair.1, pair.2) ∈ fed (plan.under config) name := feeds
  rw [if_pos feedsThere, missingThere] at operands
  dsimp only
  rw [operands]
  exact List.mem_append_right _ List.mem_cons_self

mutual

/-- A walk with a placeholder accompanies the strict walk and gets to the end in any case. -/
theorem visitTree_accompanies {plan : Plan} {config : Config}
    (refuses : plan.config.unassigned = .refuse) (lenient : config.unassigned = .placeholder)
    (root : VisitTree) {state : State}
    (named : ∀ name ∈ root.names, name ∈ state.blocks.map Block.name) :
    Accompanies plan config.placeholder (visitTree plan state root)
      (visitTree (plan.under config) state root) := by
  cases root with
  | node name children =>
    rw [VisitTree.names, List.forall_mem_cons] at named
    have fills : (plan.under config).config.unassigned = .placeholder := lenient
    obtain ⟨inside, made, visited, kept⟩ := visit_succeeds fills named.1
    have namedBelow : ∀ k ∈ VisitTree.forestNames children, k ∈ inside.blocks.map Block.name := by
      rw [kept]
      exact named.2
    rw [visitTree, visitTree, visited]
    cases strictly : visit plan name state with
    | ok pair =>
      cases visited.symm.trans (visit_of_refuse refuses strictly)
      have below := visitForest_accompanies refuses lenient children namedBelow
      dsimp only
      generalize visitForest plan inside children = strict at below ⊢
      generalize visitForest (plan.under config) inside children = other at below ⊢
      cases below with
      | through last => exact .through _
      | beyond fault feeds stands => exact .beyond fault feeds stands
    | error stop =>
      obtain ⟨successor, var, fault, feeds, stands⟩ := visit_beyond named.1 strictly visited
      obtain ⟨last, below, _⟩ := visitForest_succeeds fills children namedBelow
      -- The other walk goes on below the block, and what it has handed on stays.
      dsimp only
      rw [below]
      exact .beyond fault feeds (visitForest_operands children below successor var stands)

theorem visitForest_accompanies {plan : Plan} {config : Config}
    (refuses : plan.config.unassigned = .refuse) (lenient : config.unassigned = .placeholder)
    (forest : List VisitTree) {state : State}
    (named : ∀ name ∈ VisitTree.forestNames forest, name ∈ state.blocks.map Block.name) :
    Accompanies plan config.placeholder (visitForest plan state forest)
      (visitForest (plan.under config) state forest) := by
  cases forest with
  | nil => exact .through state
  | cons root rest =>
    rw [VisitTree.forestNames, List.forall_mem_append] at named
    have fills : (plan.under config).config.unassigned = .placeholder := lenient
    obtain ⟨middle, here, kept⟩ := visitTree_succeeds fills root named.1
    have namedRest : ∀ k ∈ VisitTree.forestNames rest, k ∈ middle.blocks.map Block.name := by
      rw [kept]
      exact named.2
    have first := visitTree_accompanies refuses lenient root named.1
    rw [visitForest, visitForest]
    rw [here] at first ⊢
    generalize visitTree plan state root = strict at first ⊢
    cases first with
    | through => exact visitForest_accompanies refuses lenient rest namedRest
    | beyond fault feeds stands =>
      obtain ⟨last, others, _⟩ := visitForest_succeeds fills rest namedRest
      rw [show Except.bind (.ok middle) _ = visitForest (plan.under config) middle rest from rfl,
        others]
      exact .beyond fault feeds (visitForest_operands rest others _ _ stands)

end

end Policies

end SsaForm.Renaming
