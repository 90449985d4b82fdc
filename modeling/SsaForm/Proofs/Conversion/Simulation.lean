import SsaForm.Proofs.Conversion.Agreement

/-!
# Conversion preserves execution

The converted graph is executed in step with the original one. Inside a block the renamed
instructions keep the environments in agreement. Along an edge the merges of the target take
the newest versions of their variables from the source, and every other variable has the
same newest version on both sides of the edge. So both graphs pass the same blocks, and their
instructions are called with the same values.
-/

namespace SsaForm

/-- The variables that a function mentions: parameters, destinations and arguments. -/
def Function.mentioned (f : Function) : List String :=
  f.params.map Param.name ++ f.instrs.flatMap fun i => i.dest.toList ++ i.args

namespace FlowGraph

open Execution Renaming

variable {V W : Type} {g : FlowGraph} {config : Config} {entry : String} {sites : List Site}

section Merges

variable {env : Env V}

/-- A version that a merge makes gets the value that flows into the merge. -/
theorem enter_mergesAt {site : Site} {made : String × String} (member : made ∈ site.dests)
    (source : Option String) :
    enter env source (g.mergesAt config sites site) made.2 =
      flowing env source (g.mergeInstr config sites site.name made) := by
  have distinct : (site.dests.map Prod.snd).Nodup := by
    rw [Site.map_snd_dests]
    exact Versions.nodup_numbered
  have found : (g.mergesAt config sites site).find? (fun phi => phi.dest = some made.2) =
      some (g.mergeInstr config sites site.name made) := by
    refine find?_eq_some_of_unique (List.mem_map_of_mem member) (by simp [mergeInstr]) ?_
    intro phi listed equal
    obtain ⟨other, inside, rfl⟩ := List.mem_map.mp listed
    have sameVersion : other.2 = made.2 := by simpa [mergeInstr] using equal
    rw [List.inj_on_of_nodup_map distinct inside member sameVersion]
  rw [enter, found]

theorem enter_mergesAt_of_not_mem {site : Site} {name : String}
    (missing : name ∉ site.scope.numbered site.merged) (source : Option String) :
    enter env source (g.mergesAt config sites site) name = env name := by
  have search : (g.mergesAt config sites site).find? (fun phi => phi.dest = some name) = none := by
    rw [List.find?_eq_none]
    intro phi member
    obtain ⟨made, listed, rfl⟩ := List.mem_map.mp member
    simp only [mergeInstr, Option.some.injEq, decide_eq_true_eq]
    intro equal
    apply missing
    rw [← Site.map_snd_dests, ← equal]
    exact List.mem_map_of_mem listed
  rw [enter, search]

/-- What flows into a merge is what its variable stands for at the end of the source. -/
theorem Converts.flowing_mergeInstr (converts : g.Converts config entry sites)
    {source target : Site} (starts : source ∈ sites)
    (related : target.name ∈ g.successors.image source.name) {made : String × String}
    (merges : made.1 ∈ g.surveyed.phis.image target.name) :
    flowing env (some source.name) (g.mergeInstr config sites target.name made) =
      env (source.outgoing config made.1) := by
  have feeds : (target.name, made.1) ∈ fed (g.plan config) source.name :=
    mem_fed.mpr ⟨converts.toRooted.mem_surveyed_successors.mpr
      ⟨converts.reaches starts, related⟩, merges⟩
  have listed : (source.name, source.outgoing config made.1) ∈
      incoming (g.plan config) sites target.name made.1 :=
    mem_incoming.mpr ⟨source, starts, feeds, rfl⟩
  have search : (incoming (g.plan config) sites target.name made.1).find?
      (fun operand => operand.1 = source.name) =
        some (source.name, source.outgoing config made.1) := by
    apply find?_eq_some_of_unique listed (decide_eq_true rfl)
    intro operand inside named
    obtain ⟨site, member, _, rfl⟩ := mem_incoming.mp inside
    rw [converts.eq_of_name member starts (of_decide_eq_true named)]
    rfl
  have operands : (g.mergeInstr config sites target.name made).labels.zip
      (g.mergeInstr config sites target.name made).args =
        incoming (g.plan config) sites target.name made.1 := by
    simp [mergeInstr, List.zip_map']
  rw [flowing, operands, Option.bind_some, search, Option.bind_some]

end Merges

/-- What the theorem asks of the names of a graph: nothing that may be mentioned looks like
a version of an assigned variable. -/
structure Separate (g : FlowGraph) (config : Config) : Prop where
  params : ∀ param ∈ g.params.map Param.name, g.Unversioned param
  args : ∀ b ∈ g.blocks, ∀ i ∈ b.instrs, ∀ arg ∈ i.args, g.Unversioned arg
  placeholder : g.Unversioned config.placeholder
  notParam : config.placeholder ∉ g.params.map Param.name

/-- A variable that is not merged enters a block with the newest version that it has at the
end of the source. -/
theorem Converts.current?_inside (converts : g.Converts config entry sites)
    {source target : Site} (starts : source ∈ sites) (ends : target ∈ sites)
    (related : target.name ∈ g.successors.image source.name) {var : String}
    (unmerged : var ∉ target.merged) :
    target.inside.current? var = source.exit.current? var := by
  have notPlaced : var ∉ g.surveyed.phis.image target.name := fun merges =>
    unmerged ((converts.mem_merged ends).mpr merges)
  rw [Versions.current?, Site.inside, Versions.stack_extend_of_not_mem unmerged,
    converts.stack_edge starts ends related notPlaced, ← Versions.current?]

/-- Taking an edge: behind the merges of the target the environments agree again. -/
theorem Converts.agrees_enter (converts : g.Converts config entry sites)
    (separate : g.Separate config) {source target : Site} (starts : source ∈ sites)
    (ends : target ∈ sites) (related : target.name ∈ g.successors.image source.name)
    {env renamed : Env V} (agrees : g.Agrees source.exit env renamed) :
    g.Agrees target.inside env
      (enter renamed (some source.name) (g.mergesAt config sites target)) := by
  have distinct : target.merged.Nodup := by
    rw [converts.merged target ends]
    exact KeySet.nodup_toList _
  have assigned : ∀ var ∈ target.merged, g.Assigns var := fun var merges =>
    converts.toRooted.assigned_of_merged ((converts.mem_merged ends).mp merges)
  refine ⟨?_, ?_, ?_⟩
  · intro var version found
    by_cases merges : var ∈ target.merged
    · have made : (var, version) ∈ target.dests :=
        (Versions.mem_zip_numbered distinct).mpr ⟨merges, found⟩
      rw [enter_mergesAt made,
        converts.flowing_mergeInstr starts related ((converts.mem_merged ends).mp merges),
        Site.outgoing]
      cases flows : source.exit.current? var with
      | some newest => exact agrees.current var newest flows
      | none =>
        -- The placeholder flows in, and it never has a value.
        rw [Option.getD_none, agrees.absent var flows]
        exact agrees.blank _ separate.notParam separate.placeholder
    · -- The merges write to versions of other variables only.
      have inScope : version ∈ target.scope.stack var := by
        rw [← Versions.stack_extend_of_not_mem merges]
        exact List.mem_of_head? found
      have notMade : version ∉ target.scope.numbered target.merged := by
        apply Versions.not_mem_numbered
        intro other merged number
        have different : other ≠ var := by
          intro equal
          subst equal
          exact merges merged
        exact (converts.grounded ends).version_ne separate.params (assigned other merged) different
          inScope
      rw [enter_mergesAt_of_not_mem notMade]
      rw [converts.current?_inside starts ends related merges] at found
      exact agrees.current var version found
  · intro var missing
    by_cases merges : var ∈ target.merged
    · exact absurd missing (Versions.current?_extend_ne_none merges)
    · rw [converts.current?_inside starts ends related merges] at missing
      exact agrees.absent var missing
  · intro name outside unversioned
    have notMade : name ∉ target.scope.numbered target.merged :=
      Versions.not_mem_numbered fun var merges => unversioned var (assigned var merges)
    rw [enter_mergesAt_of_not_mem notMade]
    exact agrees.blank name outside unversioned

section Blocks

variable {b : Block}

theorem WellFormed.terminal (wellFormed : g.WellFormed) (inside : b ∈ g.blocks) :
    Terminal b.instrs := by
  obtain ⟨body, last, whole, _, inner⟩ := wellFormed.ended b inside
  intro i member
  rw [whole, List.dropLast_concat] at member
  exact inner i member

theorem isPhi_renameInstrs {scope : Versions} {instrs : List Instr}
    (plain : ∀ i ∈ instrs, i.isPhi = false) :
    ∀ i ∈ (scope.renameInstrs instrs).1, i.isPhi = false := by
  intro i member
  obtain ⟨position, found⟩ := List.mem_iff_getElem?.mp member
  rw [Versions.getElem?_renameInstrs, Option.map_eq_some_iff] at found
  obtain ⟨original, listed, rfl⟩ := found
  rw [Versions.renameInstr_eq]
  exact plain original (List.mem_of_getElem? listed)

theorem takeWhile_isPhi {merges others : List Instr} (phis : ∀ i ∈ merges, i.isPhi = true)
    (plain : ∀ i ∈ others, i.isPhi = false) :
    (merges ++ others).takeWhile Instr.isPhi = merges ∧
      (merges ++ others).dropWhile Instr.isPhi = others := by
  rw [List.takeWhile_append_of_pos phis, List.dropWhile_append_of_pos phis]
  cases others with
  | nil => simp
  | cons first rest => simp [plain first List.mem_cons_self]

theorem passBlock_of_plain (meaning : Interpretation V W) (plain : ∀ i ∈ b.instrs, i.isPhi = false)
    (point : Point V W) :
    passBlock meaning b point = execute meaning point.env point.world b.instrs := by
  have noMerges : ∀ i ∈ ([] : List Instr), i.isPhi = true := fun _ listed =>
    absurd listed List.not_mem_nil
  obtain ⟨head, tail⟩ := takeWhile_isPhi noMerges plain
  rw [List.nil_append] at head tail
  rw [passBlock, Block.phis, head, tail, enter_nil]

end Blocks

section Run

variable (converts : g.Converts config entry sites) (separate : g.Separate config)
  (plain : ∀ b ∈ g.blocks, ∀ i ∈ b.instrs, i.isPhi = false)

include converts separate plain

theorem passBlock_finished (meaning : Interpretation V W) {site : Site} (member : site ∈ sites)
    {source : Option String} {env renamed : Env V} (world : W)
    (agrees : g.Agrees site.inside env (enter renamed source (g.mergesAt config sites site))) :
    let original := passBlock meaning site.block ⟨site.name, source, env, world⟩
    let converted :=
      passBlock meaning (g.finished config sites site.block) ⟨site.name, source, renamed, world⟩
    converted.calls = original.calls ∧ converted.exit = original.exit ∧
      converted.world = original.world ∧ g.Agrees site.exit original.env converted.env := by
  have inside := converts.sourced site member
  have renamedPlain : ∀ i ∈ site.instrs, i.isPhi = false :=
    isPhi_renameInstrs (plain site.block inside)
  obtain ⟨head, tail⟩ :
      (g.mergesAt config sites site ++ site.instrs).takeWhile Instr.isPhi =
        g.mergesAt config sites site ∧
      (g.mergesAt config sites site ++ site.instrs).dropWhile Instr.isPhi = site.instrs :=
    takeWhile_isPhi (isPhi_mergesAt site) renamedPlain
  simp only [passBlock_of_plain meaning (plain site.block inside)]
  simp only [passBlock, Block.phis, converts.finished_of_site member, head, tail]
  have assigned : ∀ i ∈ site.block.instrs, ∀ var, i.dest = some var → g.Assigns var := by
    intro i listed var dest
    refine ⟨site.block, inside, converts.toRooted.live_iff.mpr (converts.reaches member), ?_⟩
    exact List.mem_filterMap.mpr ⟨i, listed, dest⟩
  exact execute_renameInstrs meaning separate.params (converts.toWellFormed.terminal inside)
    (separate.args site.block inside) assigned ((converts.grounded member).extend _) agrees world

/-- From points in agreement both graphs run alike. -/
theorem run_finished (meaning : Interpretation V W) (steps : Nat) {site : Site}
    (member : site ∈ sites) {source : Option String} {env renamed : Env V} (world : W)
    (agrees : g.Agrees site.inside env (enter renamed source (g.mergesAt config sites site))) :
    run meaning { g with blocks := g.blocks.map (g.finished config sites) } steps
        ⟨site.name, source, renamed, world⟩ =
      run meaning g steps ⟨site.name, source, env, world⟩ := by
  -- Agreement at the head of a block is the invariant; each step reaches the next head.
  induction steps generalizing site source env renamed world with
  | zero => rfl
  | succ steps inductionHypothesis =>
    have inside := converts.sourced site member
    have found : g.block? site.name = some site.block :=
      converts.toWellFormed.block?_eq_some.mpr ⟨inside, rfl⟩
    obtain ⟨calls, exits, worlds, after⟩ :=
      passBlock_finished converts separate plain meaning member world agrees
    rw [run, run, block?_map, found, Option.map_some]
    simp only [calls, exits]
    congr 1
    cases leaves : (passBlock meaning site.block ⟨site.name, source, env, world⟩).exit with
    | halt => rfl
    | stuck => rfl
    | goto label =>
      have ends : (execute meaning env world site.block.instrs).exit = .goto label := by
        rw [← leaves, passBlock_of_plain meaning (plain site.block inside)]
      have related : label ∈ g.successors.image site.name :=
        converts.toWellFormed.mem_image_successors.mpr ⟨site.block, inside, rfl,
          mem_targets_of_goto (converts.toWellFormed.terminal inside) ends⟩
      obtain ⟨target, listed, rfl⟩ := converts.exists_site ((converts.reaches member).step related)
      rw [worlds]
      exact inductionHypothesis listed _
        (converts.agrees_enter separate member listed related after)

end Run

/-- At the entry the parameters stand for themselves on both sides. -/
theorem Converts.agrees_start (converts : g.Converts config entry sites) {site : Site}
    (member : site ∈ sites) (first : site.name = entry) (valuation : String → Option V) :
    g.Agrees site.inside (paramEnv g.params valuation)
      (enter (paramEnv g.params valuation) none (g.mergesAt config sites site)) := by
  have unmerged : site.merged = [] := by
    apply List.eq_nil_iff_forall_not_mem.mpr
    intro var merges
    exact (converts.toRooted.reaches_of_merged ((converts.mem_merged member).mp merges)).2 first
  have noMerges : g.mergesAt config sites site = [] := by
    rw [mergesAt, Site.dests, unmerged]
    rfl
  have scope : ∀ var, site.inside.current? var =
      if var ∈ g.params.map Param.name then some var else none := by
    intro var
    rw [Site.inside, unmerged, Versions.extend_nil, Versions.current?,
      converts.stack_entry member first, paramScope, Versions.stack_ofParams]
    split
    next => rfl
    next => rfl
  rw [noMerges, enter_nil]
  refine ⟨?_, ?_, ?_⟩
  · intro var version found
    rw [scope] at found
    split at found
    next =>
      cases found
      rfl
    next => cases found
  · intro var missing
    rw [scope] at missing
    split at missing
    next => cases missing
    next outside => exact if_neg outside
  · intro name outside _
    exact if_neg outside

theorem Converts.trace_finished (converts : g.Converts config entry sites)
    (separate : g.Separate config) (plain : ∀ b ∈ g.blocks, ∀ i ∈ b.instrs, i.isPhi = false)
    (meaning : Interpretation V W) (valuation : String → Option V) (world : W) (steps : Nat) :
    trace meaning { g with blocks := g.blocks.map (g.finished config sites) } valuation world
        steps =
      trace meaning g valuation world steps := by
  obtain ⟨site, member, first⟩ := converts.exists_site (.refl g.successors entry)
  have runs := run_finished converts separate plain meaning steps member world
    (converts.agrees_start member first valuation)
  rw [first] at runs
  rw [trace, trace, entry?, names_map finished_name, ← entry?, converts.root]
  exact runs

/-- What is asked of a function's names carries over to its graph. -/
theorem separate_ofFunction {f : Function} {checkLabels : Bool}
    (built : ofFunction f checkLabels = .ok g)
    (unversioned : ∀ name ∈ config.placeholder :: f.mentioned, g.Unversioned name)
    (notParam : config.placeholder ∉ f.params.map Param.name) : g.Separate config := by
  rw [List.forall_mem_cons] at unversioned
  have params := params_ofFunction built
  refine ⟨?_, ?_, unversioned.1, ?_⟩
  · intro param isParam
    rw [params] at isParam
    exact unversioned.2 param (List.mem_append_left _ isParam)
  · intro b inside i listed arg isArg
    rcases mem_ofFunction built inside listed with inBody | rfl | ⟨target, rfl⟩
    · exact unversioned.2 arg (List.mem_append_right _
        (List.mem_flatMap.mpr ⟨i, inBody, List.mem_append_right _ isArg⟩))
    · exact absurd isArg List.not_mem_nil
    · exact absurd isArg List.not_mem_nil
  · rw [params]
    exact notParam

/-- Converting a graph does not change what it does. Whatever the operations mean, both
graphs pass the same blocks from the entry on, and the instructions of each block are called
with the same values, undefined ones included. Only an edge that leads nowhere prevents the
conversion. -/
theorem trace_convert (f : Function) (checkLabels : Bool) (g : FlowGraph) (config : Config)
    (built : ofFunction f checkLabels = .ok g) (plain : ∀ i ∈ f.instrs, i.isPhi = false)
    (lenient : config.unassigned = .placeholder)
    (unversioned : ∀ name ∈ config.placeholder :: f.mentioned, g.Unversioned name)
    (notParam : config.placeholder ∉ f.params.map Param.name)
    (meaning : Interpretation V W) (valuation : String → Option V) (world : W) (steps : Nat) :
    (g.dangling? = none → g.toSsa config = .ok (g.convert config).graph) ∧
      trace meaning (g.convert config).graph valuation world steps =
        trace meaning g valuation world steps := by
  have wellFormed := wellFormed_ofFunction built
  cases root : g.entry? with
  | none =>
    have unchanged : g.convert config = ⟨g, none, []⟩ := by rw [convert, root]
    refine ⟨fun _ => ?_, by rw [unchanged]⟩
    rw [toSsa, unchanged]
  | some entry =>
    cases dangling : g.dangling? with
    | some pair =>
      have unchanged : (g.convert config).graph = g := by
        simp only [convert, root, wellFormed.indexed.edges_of_dangling dangling]
      exact ⟨fun resolved => absurd resolved (Option.some_ne_none pair), by rw [unchanged]⟩
    | none =>
      have rooted : g.Rooted entry := { wellFormed with root, resolved := dangling }
      have succeeded := rooted.convert_succeeds lenient
      refine ⟨fun _ => by rw [toSsa, succeeded], ?_⟩
      obtain ⟨sites, converts, graph⟩ := rooted.converts succeeded
      have plainBlocks : ∀ b ∈ g.blocks, ∀ i ∈ b.instrs, i.isPhi = false := by
        intro b inside i listed
        rcases mem_ofFunction built inside listed with inBody | rfl | ⟨target, rfl⟩
        · exact plain i inBody
        · rfl
        · rfl
      rw [graph]
      exact converts.trace_finished (separate_ofFunction built unversioned notParam) plainBlocks
        meaning valuation world steps

theorem unversioned_of_no_dot {name : String} (noDot : '.' ∉ name.toList) : g.Unversioned name := by
  intro var _ number equal
  exact noDot (equal ▸ dot_mem_versionName var number)

/-- A loop that is left with a variable that only its body assigns. -/
def looping : Function where
  name := "main"
  params := [⟨"n", .primitive "int"⟩]
  body := [
    .instr (.constant "x" (.primitive "int") (.int 0)),
    .label "head",
    .instr (.assign "lt" "more" (.primitive "bool") ["x", "n"]),
    .instr (.br "more" "body" "done"),
    .label "body",
    .instr (.assign "add" "y" (.primitive "int") ["x", "n"]),
    .instr (.assign "add" "x" (.primitive "int") ["y", "n"]),
    .instr (.jmp "head"),
    .label "done",
    .instr (.effect "print" ["y"])]

/-- Every operation results in the time of its call; branches take their first label until
time six. -/
def clocked : Interpretation Nat Nat := fun call =>
  ⟨some call.world, call.world + 1, if call.world < 6 then 0 else 1⟩

theorem trace_convert_looping :
    ∃ g, ofFunction looping true = .ok g ∧
      (trace clocked g (fun _ => some 7) 0 9).map Passage.block =
        ["bb1", "head", "body", "head", "done"] ∧
      g.toSsa {} = .ok (g.convert {}).graph ∧
      trace clocked (g.convert {}).graph (fun _ => some 7) 0 9 =
        trace clocked g (fun _ => some 7) 0 9 := by
  have succeeds : (ofFunction looping true).toOption.isSome = true := by decide +kernel
  have blocks : (ofFunction looping true).toOption.map
      (fun g => (trace clocked g (fun _ => some 7) 0 9).map Passage.block) =
        some ["bb1", "head", "body", "head", "done"] := by decide +kernel
  have resolved : (ofFunction looping true).toOption.map FlowGraph.dangling? = some none := by
    decide +kernel
  have noDots : ∀ name ∈ ({} : Config).placeholder :: looping.mentioned, '.' ∉ name.toList := by
    decide
  cases built : ofFunction looping true with
  | error fault =>
    rw [built] at succeeds
    cases succeeds
  | ok g =>
    rw [built] at blocks resolved
    obtain ⟨converted, same⟩ := trace_convert looping true g {} built (by decide) rfl
      (fun name listed => unversioned_of_no_dot (noDots name listed)) (by decide) clocked
      (fun _ => some 7) 0 9
    exact ⟨g, rfl, Option.some.inj blocks, converted (Option.some.inj resolved), same⟩

end FlowGraph

end SsaForm
