import SsaForm.Proofs.Renaming.Versions
import SsaForm.Renaming.Walk

/-!
# The walk as a recursion

A block is visited in the scope that its parent leaves. The walk undoes that scope by
dropping the versions of a block behind its last child; the recursion over the tree puts
back the scope in front of the block. Both come to the same, since a scope without empty
stacks is told by its stacks.
-/

namespace SsaForm.Renaming

/-- A visit to a block: the block as it was found, the variables it merges and the scope it
was entered with. -/
structure Site where
  block : Block
  merged : List String
  scope : Versions

namespace Site

def name (site : Site) : String :=
  site.block.name

/-- The variables of which the block makes versions, in order. -/
def made (site : Site) : List String :=
  site.merged ++ site.block.assigned

/-- The scope behind the merges. -/
def inside (site : Site) : Versions :=
  site.scope.extend site.merged

/-- The scope at the end of the block. -/
def exit (site : Site) : Versions :=
  site.inside.extend site.block.assigned

def instrs (site : Site) : List Instr :=
  (site.inside.renameInstrs site.block.instrs).1

def renamed (site : Site) : Block :=
  { site.block with instrs := site.instrs }

/-- The versions that the merges make, each behind its variable. -/
def dests (site : Site) : List (String × String) :=
  site.merged.zip (site.scope.numbered site.merged)

/-- The versions that the block makes, in order. -/
def versions (site : Site) : List String :=
  site.scope.numbered site.made

theorem exit_eq (site : Site) : site.exit = site.scope.extend site.made :=
  (Versions.extend_append _ _ _).symm

theorem map_fst_dests (site : Site) : site.dests.map Prod.fst = site.merged :=
  List.map_fst_zip (Nat.le_of_eq Versions.length_numbered.symm)

theorem map_snd_dests (site : Site) :
    site.dests.map Prod.snd = site.scope.numbered site.merged := by
  rw [dests]
  exact List.map_snd_zip (Nat.le_of_eq Versions.length_numbered)

theorem exists_number {site : Site} {made : String × String}
    (listed : made ∈ site.dests) : ∃ number, made.2 = versionName made.1 number := by
  have stems : made.2 ∈ site.dests.filterMap fun pair =>
      if pair.1 = made.1 then some pair.2 else none :=
    List.mem_filterMap.mpr ⟨made, listed, if_pos rfl⟩
  rw [dests, Versions.zip_numbered] at stems
  obtain ⟨count, _, equal⟩ := List.mem_map.mp stems
  exact ⟨_, equal.symm⟩

end Site

/-- The visit to a block in a scope. -/
def Plan.siteOf (plan : Plan) (block : Block) (scope : Versions) : Site :=
  ⟨block, (plan.phis.image block.name).toList, scope⟩

theorem visit_of_split {plan : Plan} {name : String} {state : State} {before behind : List Block}
    {block : Block} (parts : splitLast? name state.blocks = some (before, block, behind)) :
    visit plan name state =
      let site := plan.siteOf block state.versions
      let blocks := before ++ site.renamed :: behind
      match feed plan.config site.exit name (fed plan name)
        (state.tables.setDests name (.ofList site.dests)) with
      | .error fault => .error ⟨fault, blocks, state.events⟩
      | .ok tables =>
        .ok (⟨blocks, site.exit, tables, state.events ++ [.blockRenamed name site.made.length]⟩,
          site.made) := by
  obtain ⟨_, rfl, _⟩ := splitLast?_eq_some parts
  rw [visit, parts]
  simp only [Versions.pushAll_eq, Versions.renameInstrs_scope]
  rfl

/-- What a visit does to the walk's state. -/
theorem visit_eq_ok {plan : Plan} {name : String} {state after : State} {made : List String} :
    visit plan name state = .ok (after, made) ↔
      ∃ before block behind tables,
        splitLast? name state.blocks = some (before, block, behind) ∧
        feed plan.config (plan.siteOf block state.versions).exit name (fed plan name)
          (state.tables.setDests name (.ofList (plan.siteOf block state.versions).dests)) =
            .ok tables ∧
        after = ⟨before ++ (plan.siteOf block state.versions).renamed :: behind,
          (plan.siteOf block state.versions).exit, tables,
          state.events ++ [.blockRenamed name (plan.siteOf block state.versions).made.length]⟩ ∧
        made = (plan.siteOf block state.versions).made := by
  constructor
  · intro visited
    cases parts : splitLast? name state.blocks with
    | none =>
      rw [visit, parts] at visited
      cases visited
    | some triple =>
      obtain ⟨before, block, behind⟩ := triple
      rw [visit_of_split parts] at visited
      dsimp only at visited
      split at visited
      next => cases visited
      next tables fedTables =>
        cases visited
        exact ⟨before, block, behind, tables, rfl, fedTables, rfl, rfl⟩
  · intro fits
    obtain ⟨before, block, behind, tables, parts, fedTables, rfl, rfl⟩ := fits
    rw [visit_of_split parts]
    simp only [fedTables]

theorem visit_scope {plan : Plan} {name : String} {state after : State} {made : List String}
    (visited : visit plan name state = .ok (after, made)) :
    after.versions = state.versions.extend made := by
  obtain ⟨_, _, _, _, _, _, rfl, rfl⟩ := visit_eq_ok.mp visited
  exact Site.exit_eq _

/-- The same state with the versions in scope put back; the numbering goes on. -/
def State.restore (state : State) (versions : Versions) : State :=
  { state with versions := ⟨versions.inScope, state.versions.counters⟩ }

mutual

/-- Visits the root of a tree and what lies below it, and puts the scope back. -/
def visitTree (plan : Plan) (state : State) : VisitTree → Except Stop State
  | .node name children =>
    match visit plan name state with
    | .error stop => .error stop
    | .ok (inside, _) =>
      (visitForest plan inside children).map fun after => after.restore state.versions

/-- Visits trees in order. -/
def visitForest (plan : Plan) (state : State) : List VisitTree → Except Stop State
  | [] => .ok state
  | tree :: rest => (visitTree plan state tree).bind fun after => visitForest plan after rest

end

section Opening

variable {plan : Plan} {state after : State}

theorem visitTree_eq_ok {name : String} {children : List VisitTree} :
    visitTree plan state (.node name children) = .ok after ↔
      ∃ inside made last, visit plan name state = .ok (inside, made) ∧
        visitForest plan inside children = .ok last ∧ after = last.restore state.versions := by
  rw [visitTree]
  cases visit plan name state with
  | error stop => simp
  | ok pair =>
    obtain ⟨inside, made⟩ := pair
    cases below : visitForest plan inside children with
    | error stop =>
      refine iff_of_false (by simp [below, Except.map]) ?_
      intro fits
      obtain ⟨_, _, last, found, succeeded, _⟩ := fits
      cases found
      cases below.symm.trans succeeded
    | ok last =>
      constructor
      · intro visited
        simp only [below, Except.map, Except.ok.injEq] at visited
        exact ⟨inside, made, last, rfl, below, visited.symm⟩
      · intro fits
        obtain ⟨_, _, _, found, succeeded, rfl⟩ := fits
        cases found
        cases below.symm.trans succeeded
        simp [below, Except.map]

theorem visitForest_cons_eq_ok {tree : VisitTree} {rest : List VisitTree} :
    visitForest plan state (tree :: rest) = .ok after ↔
      ∃ middle, visitTree plan state tree = .ok middle ∧
        visitForest plan middle rest = .ok after := by
  rw [visitForest]
  cases visitTree plan state tree with
  | error stop => simp [Except.bind]
  | ok middle => simp [Except.bind]

theorem visitTree_inScope {tree : VisitTree} (visited : visitTree plan state tree = .ok after) :
    after.versions.inScope = state.versions.inScope := by
  cases tree with
  | node name children =>
    obtain ⟨_, _, last, _, _, rfl⟩ := visitTree_eq_ok.mp visited
    rfl

theorem visitForest_inScope {forest : List VisitTree}
    (visited : visitForest plan state forest = .ok after) :
    after.versions.inScope = state.versions.inScope := by
  induction forest generalizing state with
  | nil =>
    rw [visitForest] at visited
    cases visited
    rfl
  | cons tree rest inductionHypothesis =>
    obtain ⟨middle, first, others⟩ := visitForest_cons_eq_ok.mp visited
    rw [inductionHypothesis others, visitTree_inScope first]

end Opening

mutual

/-- The walk gets through a tree as the recursion does, whatever is pending behind it. -/
theorem walk_visitTree (plan : Plan) (state : State) (proper : state.versions.Proper)
    (tree : VisitTree) (rest : List Pending) :
    walk plan state (.enter tree :: rest) =
      (visitTree plan state tree).bind fun after => walk plan after rest := by
  cases tree with
  | node name children =>
    rw [walk, visitTree]
    cases visited : visit plan name state with
    | error stop => rfl
    | ok pair =>
      obtain ⟨inside, made⟩ := pair
      have scope : inside.versions = state.versions.extend made := visit_scope visited
      have insideProper : inside.versions.Proper := by
        rw [scope]
        exact proper.extend
      simp only
      rw [walk_visitForest plan inside insideProper children (.leave made :: rest)]
      cases below : visitForest plan inside children with
      | error stop => rfl
      | ok last =>
        have same : last.versions.inScope = (state.versions.extend made).inScope := by
          rw [visitForest_inScope below, scope]
        -- The numbering has gone on below, so only what is in scope comes back.
        have dropped : last.versions.popAll made =
            ⟨state.versions.inScope, last.versions.counters⟩ := by
          rw [← proper.popAll_extend same, ← Versions.counters_popAll _ made]
        simp only [Except.bind, Except.map, walk, State.restore, dropped]

/-- The walk gets through trees as the recursion does, whatever is pending behind them. -/
theorem walk_visitForest (plan : Plan) (state : State) (proper : state.versions.Proper)
    (forest : List VisitTree) (rest : List Pending) :
    walk plan state (Pending.enterAll forest rest) =
      (visitForest plan state forest).bind fun after => walk plan after rest := by
  cases forest with
  | nil => rw [visitForest]; rfl
  | cons tree others =>
    refine (walk_visitTree plan state proper tree (Pending.enterAll others rest)).trans ?_
    rw [visitForest]
    cases visited : visitTree plan state tree with
    | error stop => rfl
    | ok middle =>
      have middleProper : middle.versions.Proper := by
        intro var
        rw [visitTree_inScope visited]
        exact proper var
      exact walk_visitForest plan middle middleProper others rest

end

/-- Renaming is the recursion over the unfolded tree, from the parameters on. -/
theorem rename_eq (config : Config) (phis successors tree : Relation String) (root : String)
    (params : List String) (blocks : List Block) :
    rename config phis successors tree root params blocks =
      match visitTree ⟨config, phis, successors⟩ ⟨blocks, .ofParams params, {}, []⟩
        (.unfold tree root) with
      | .ok state => ⟨state.blocks, state.events, .ok state.tables⟩
      | .error stop => ⟨stop.blocks, stop.events, .error stop.fault⟩ := by
  rw [rename, walk_visitTree _ _ (Versions.Proper.ofParams params)]
  cases visitTree ⟨config, phis, successors⟩ ⟨blocks, .ofParams params, {}, []⟩
      (.unfold tree root) with
  | error stop => rfl
  | ok after => simp only [Except.bind, walk]

end SsaForm.Renaming
