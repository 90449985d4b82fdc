import SsaForm.Proofs.FlowGraph.Layout
import SsaForm.Proofs.Stepping

/-!
# Bodies and graphs in lock-step

Laying out a body in blocks makes a jump out of every label that control falls into, and a
return out of the end of the body. So the executions of both take their steps side by side; at
most the label in front of the body has no step in the graph.
-/

namespace SsaForm.FlowGraph

open Stepping

section Simulation

variable {f : Function} {checkLabels : Bool} {g : FlowGraph}

/-- Control stands in front of the rest of a body. The instructions in front of it in its
block do not leave the block; the rest of the block and the blocks behind it come from the
rest of the body. -/
def Located (f : Function) (rest : List Item) (place : Place) : Prop :=
  ∃ before done used,
    openedRuns f = before ++ ⟨place.block, done ++ (Run.takeOpen (Run.split rest)).1⟩ ::
      nameRuns used (Run.takeOpen (Run.split rest)).2 ∧
    done.length = place.position ∧ ∀ i ∈ done, i.isTerminator = false

theorem block?_of_opened (built : ofFunction f checkLabels = .ok g) {before following : List Block}
    {b : Block} (whole : openedRuns f = before ++ b :: following) :
    g.block? b.name = some (endWith b (leaving following)) := by
  have wellFormed := wellFormed_ofFunction built
  obtain ⟨_, rfl⟩ := ofFunction_eq_ok built
  refine wellFormed.block?_eq_some.mpr ⟨?_, endWith_name _ _⟩
  show _ ∈ closeBlocks (openedRuns f)
  rw [whole]
  exact mem_closeBlocks_append before b following

theorem standing_of_opened (built : ofFunction f checkLabels = .ok g)
    {before following : List Block} {b : Block} (whole : openedRuns f = before ++ b :: following) :
    standing f b.name = b.instrs.length := by
  apply standing_eq (ofFunction_eq_ok built).1
  rw [whole]
  exact List.mem_append_right _ List.mem_cons_self

/-- At the end of an open block stands an instruction that was added. -/
theorem instrAt?_end (built : ofFunction f checkLabels = .ok g) {before following : List Block}
    {name : String} {done : List Instr} (whole : openedRuns f = before ++ ⟨name, done⟩ :: following)
    (isOpen : ∀ i ∈ done, i.isTerminator = false) :
    instrAt? g ⟨name, done.length⟩ = some (leaving following) ∧ standing f name = done.length := by
  refine ⟨?_, standing_of_opened built whole⟩
  have found : g.block? name = some _ := block?_of_opened built whole
  have extended := endWith_of_open (b := ⟨name, done⟩) isOpen (leaving following)
  rw [instrAt?, found, Option.bind_some, extended, List.getElem?_concat_length]

namespace Located

/-- Control is at the start of a block that comes from the rest of the body. -/
theorem start (before : List Block) (used : KeySet String) {name : String} {rest : List Item}
    (whole : openedRuns f = before ++ ⟨name, (Run.takeOpen (Run.split rest)).1⟩ ::
      nameRuns used (Run.takeOpen (Run.split rest)).2) : Located f rest ⟨name, 0⟩ :=
  ⟨before, [], used, whole, rfl, List.forall_mem_nil _⟩

theorem startOf?_eq (built : ofFunction f checkLabels = .ok g) {rest : List Item} {name : String}
    (located : Located f rest ⟨name, 0⟩) : startOf? g name = some ⟨name, 0⟩ := by
  obtain ⟨before, done, used, whole, _⟩ := located
  have found : g.block? name = some _ := block?_of_opened built whole
  rw [startOf?, found]
  rfl

theorem at_end (built : ofFunction f checkLabels = .ok g) {place : Place}
    (located : Located f [] place) :
    instrAt? g place = some (.ret []) ∧ standing f place.block = place.position := by
  obtain ⟨before, done, used, whole, position, isOpen⟩ := located
  rw [show (Run.takeOpen (Run.split [])).1 = [] from rfl, List.append_nil] at whole
  obtain ⟨found, own⟩ := instrAt?_end built whole isOpen
  rw [position] at found own
  exact ⟨found, own⟩

theorem at_label (built : ofFunction f checkLabels = .ok g) {place : Place} {label : String}
    {rest : List Item} (located : Located f (.label label :: rest) place) :
    instrAt? g place = some (.jmp label) ∧ standing f place.block = place.position ∧
      Located f rest ⟨label, 0⟩ := by
  obtain ⟨before, done, used, whole, position, isOpen⟩ := located
  rw [show (Run.takeOpen (Run.split (.label label :: rest))).1 = [] from rfl,
    List.append_nil] at whole
  obtain ⟨found, own⟩ := instrAt?_end built whole isOpen
  rw [position] at found own
  refine ⟨found, own, start (before ++ [⟨place.block, done⟩]) used ?_⟩
  rw [whole, List.append_cons]
  rfl

theorem at_instr (built : ofFunction f checkLabels = .ok g) {place : Place} {i : Instr}
    {rest : List Item} (located : Located f (.instr i :: rest) place) :
    instrAt? g place = some i ∧ place.position < standing f place.block ∧
      (i.isTerminator = false → Located f rest { place with position := place.position + 1 }) ∧
      ∀ label ∈ i.labels, label ∈ bodyLabels f.body := by
  obtain ⟨before, done, used, parts, position, isOpen⟩ := located
  obtain ⟨behind, first⟩ : ∃ behind,
      (Run.takeOpen (Run.split (.instr i :: rest))).1 = i :: behind := by
    rw [Run.split_instr]
    split <;> exact ⟨_, rfl⟩
  have whole := parts
  rw [first] at whole
  have length : place.position < (done ++ i :: behind).length := by
    rw [List.length_append, List.length_cons, position]
    omega
  have here : (done ++ i :: behind)[place.position]? = some i := by
    rw [← position, List.getElem?_append_right (Nat.le_refl _), Nat.sub_self]
    rfl
  refine ⟨?_, ?_, ?_, ?_⟩
  · have found : g.block? place.block = some _ := block?_of_opened built whole
    rw [instrAt?, found, Option.bind_some, endWith_getElem? length, here]
  · have own : standing f place.block = _ := standing_of_opened built whole
    rw [own]
    exact length
  · intro continues
    rw [Run.split_instr, continues] at parts
    refine ⟨before, done ++ [i], used, ?_, ?_, ?_⟩
    · rw [parts, List.append_assoc]
      rfl
    · rw [List.length_append, position]
      rfl
    · intro j inside
      rcases List.mem_append.mp inside with earlier | last
      · exact isOpen j earlier
      · rw [List.mem_singleton.mp last]
        exact continues
  · intro label mentioned
    refine mem_bodyLabels (mem_body_of_opened (b := ⟨place.block, done ++ i :: behind⟩) ?_ ?_)
      mentioned
    · rw [whole]
      exact List.mem_append_right _ List.mem_cons_self
    · exact List.mem_append_right _ List.mem_cons_self

end Located

theorem behindLabel_eq_some {label : String} {body rest : List Item}
    (found : behindLabel label body = some rest) :
    ∃ before, body = before ++ .label label :: rest := by
  fun_induction behindLabel label body with
  | case1 => cases found
  | case2 others =>
    cases found
    exact ⟨[], rfl⟩
  | case3 name others _ inductionHypothesis =>
    obtain ⟨before, rfl⟩ := inductionHypothesis found
    exact ⟨.label name :: before, rfl⟩
  | case4 i others inductionHypothesis =>
    obtain ⟨before, rfl⟩ := inductionHypothesis found
    exact ⟨.instr i :: before, rfl⟩

theorem behindLabel_eq_none {label : String} {body : List Item}
    (missing : behindLabel label body = none) : Item.label label ∉ body := by
  fun_induction behindLabel label body with
  | case1 => exact List.not_mem_nil
  | case2 => cases missing
  | case3 name others different inductionHypothesis =>
    simp [inductionHypothesis missing, Ne.symm different]
  | case4 i others inductionHypothesis => simp [inductionHypothesis missing]

/-- Behind a label of the body control is at the start of the block with that name. -/
theorem located_behindLabel {label : String} {rest : List Item}
    (found : behindLabel label f.body = some rest) : Located f rest ⟨label, 0⟩ := by
  obtain ⟨before, body⟩ := behindLabel_eq_some found
  obtain ⟨front, opened⟩ := exists_front f
  obtain ⟨runs, parts⟩ := Run.split_append_label before rest label
  obtain ⟨more, named⟩ := nameRuns_append (bodyLabels f.body) runs
  have split := congrArg Run.split body
  apply Located.start (front ++ nameRuns (bodyLabels f.body) runs) more
  rw [opened, namedRuns, split, parts, named, ← List.append_assoc]
  rfl

/-- A label that the body mentions leads to related places, or nowhere. -/
theorem targets_related (built : ofFunction f checkLabels = .ok g) {label : String}
    (mentioned : label ∈ bodyLabels f.body) :
    Option.Rel (Located f) (behindLabel label f.body) (startOf? g label) := by
  cases found : behindLabel label f.body with
  | some rest =>
    have located := located_behindLabel found
    rw [located.startOf?_eq built]
    exact .some located
  | none =>
    have absent : startOf? g label = none := by
      rw [startOf?, Option.map_eq_none_iff]
      cases block : g.block? label with
      | none => rfl
      | some b =>
        obtain ⟨inside, named⟩ := (wellFormed_ofFunction built).block?_eq_some.mp block
        have labelled := (mem_names_iff_mem_labels built mentioned).mp
          (mem_names.mpr ⟨b, inside, named⟩)
        exact absurd (Function.mem_labels.mp labelled) (behindLabel_eq_none found)
    rw [absent]
    exact .none

/-- If the body starts with a label, control is in front of the label in an added entry, or
else behind the label. -/
theorem located_entry_of_label {label : String} {rest : List Item}
    (body : f.body = .label label :: rest) :
    ∃ name, ((openedRuns f).map Block.name).head? = some name ∧
      (Located f f.body ⟨name, 0⟩ ∨ Located f rest ⟨name, 0⟩) := by
  have split : Run.split f.body = _ := congrArg Run.split body
  by_cases added : entryMentioned (namedRuns f) = true
  · have opened : openedRuns f = _ := if_pos added
    refine ⟨_, by rw [opened]; rfl, .inl (Located.start [] (bodyLabels f.body) ?_)⟩
    rw [opened, namedRuns, split]
    rfl
  · have opened : openedRuns f = namedRuns f := if_neg added
    rw [opened, namedRuns, split]
    refine ⟨label, rfl, .inr (Located.start [] (bodyLabels f.body) ?_)⟩
    rw [opened, namedRuns, split]
    rfl

/-- If the body starts with an instruction, control is in front of it. No entry is added,
since nothing mentions the name that the first block gets. -/
theorem located_entry_of_instr {i : Instr} {rest : List Item} (body : f.body = .instr i :: rest) :
    ∃ name, ((openedRuns f).map Block.name).head? = some name ∧ Located f f.body ⟨name, 0⟩ := by
  obtain ⟨instrs, runs, split⟩ : ∃ instrs runs, Run.split f.body = ⟨none, instrs⟩ :: runs := by
    rw [body, Run.split_instr]
    split <;> exact ⟨_, _, rfl⟩
  obtain ⟨used, named⟩ : ∃ used,
      namedRuns f = ⟨freshName "bb" (bodyLabels f.body), instrs⟩ :: nameRuns used runs := by
    rw [namedRuns, split]
    exact ⟨_, rfl⟩
  have unmentioned : ¬ entryMentioned (namedRuns f) = true := by
    intro mentioned
    rw [named, entryMentioned, ← named, List.any_eq_true] at mentioned
    obtain ⟨b, inside, mentions⟩ := mentioned
    obtain ⟨j, inBlock, labelled⟩ := List.any_eq_true.mp mentions
    obtain ⟨run, isRun, same⟩ := mem_namedRuns inside
    have inBody := Run.split_subset f.body run isRun j (same ▸ inBlock)
    exact freshName_not_mem "bb" (bodyLabels f.body)
      (mem_bodyLabels inBody (of_decide_eq_true labelled))
  have opened : openedRuns f = namedRuns f := if_neg unmentioned
  refine ⟨_, by rw [opened, named]; rfl, Located.start [] used ?_⟩
  rw [opened, named, split]
  rfl

section Steps

variable {W : Type} (meaning : Meaning W)

/-- An added instruction changes nothing but where control is. -/
theorem perform_added {P : Type} (progress : Progress W P) (find : String → Option P) {i : Instr}
    (leaves : i.isTerminator = true) (next : P) {own : Bool} (added : own = false) :
    progress.perform meaning find own i next =
      ⟨progress.performed, progress.world, .behind find next
        (Execution.exit? i (if meaning.takesFirst i progress.world then 0 else 1))⟩ := by
  simp [Progress.perform, leaves, added]

/-- Body and graph take one step side by side. -/
theorem matches_step (built : ofFunction f checkLabels = .ok g)
    {left : Progress W (List Item)} {right : Progress W Place}
    (matched : left.Matches (Located f) right) :
    (bodyStep meaning f.body left).Matches (Located f)
      (graphStep meaning g (standing f) right) := by
  obtain ⟨performed, world, control⟩ := left
  obtain ⟨_, _, otherControl⟩ := right
  obtain ⟨rfl, rfl, corresponds⟩ := matched
  cases corresponds with
  | halted => exact ⟨rfl, rfl, .halted⟩
  | stuck => exact ⟨rfl, rfl, .stuck⟩
  | @running rest place located =>
    cases rest with
    | nil =>
      -- The end of the body is the return that was added to the last block.
      obtain ⟨found, own⟩ := located.at_end built
      simp only [bodyStep, graphStep, found]
      rw [perform_added meaning _ _ rfl _ (by simp [own])]
      exact ⟨rfl, rfl, .halted⟩
    | cons item rest =>
      cases item with
      | label label =>
        -- Falling into a label is the jump that was added to the block in front of it.
        obtain ⟨found, own, behind⟩ := located.at_label built
        simp only [bodyStep, graphStep, found]
        rw [perform_added meaning _ _ rfl _ (by simp [own])]
        refine ⟨rfl, rfl, ?_⟩
        show Control.Corresponds _ _ (Control.behind (startOf? g)
          { place with position := place.position + 1 } (some (.goto label)))
        rw [Control.behind, behind.startOf?_eq built]
        exact .running behind
      | instr i =>
        obtain ⟨found, own, behind, mentioned⟩ := located.at_instr built
        have matched : Progress.Matches (Located f)
            ⟨performed, world, .running (.instr i :: rest)⟩ ⟨performed, world, .running place⟩ :=
          ⟨rfl, rfl, .running located⟩
        simp only [bodyStep, graphStep, found, own, decide_true]
        exact matched.perform meaning behind fun label targeted =>
          targets_related built (mentioned label (mem_labels_of_mem_targets targeted))

/-- A body that starts with a label may be one step behind its graph, and so is an empty
one. -/
theorem matches_start (built : ofFunction f checkLabels = .ok g) (world : W) :
    ∃ lead ≤ 1, (bodyRun meaning f.body world lead).Matches (Located f)
      (graphRun meaning g (standing f) world 0) := by
  have entry : g.entry? = ((openedRuns f).map Block.name).head? := by
    rw [(ofFunction_eq_ok built).2, entry?, names_closed]
  rw [graphRun, entry]
  cases body : f.body with
  | nil =>
    have empty : openedRuns f = [] := by rw [openedRuns, namedRuns, body]; rfl
    rw [empty]
    exact ⟨1, Nat.le_refl 1, rfl, rfl, .halted⟩
  | cons item rest =>
    cases item with
    | label label =>
      obtain ⟨name, isEntry, before | behind⟩ := located_entry_of_label body
      · rw [isEntry]
        exact ⟨0, Nat.zero_le 1, rfl, rfl, .running (body ▸ before)⟩
      · rw [isEntry]
        exact ⟨1, Nat.le_refl 1, rfl, rfl, .running behind⟩
    | instr i =>
      obtain ⟨name, isEntry, before⟩ := located_entry_of_instr body
      rw [isEntry]
      exact ⟨0, Nat.zero_le 1, rfl, rfl, .running (body ▸ before)⟩

theorem matches_run (built : ofFunction f checkLabels = .ok g) (world : W) :
    ∃ lead ≤ 1, ∀ steps, (bodyRun meaning f.body world (steps + lead)).Matches (Located f)
      (graphRun meaning g (standing f) world steps) := by
  obtain ⟨lead, bounded, start⟩ := matches_start meaning built world
  refine ⟨lead, bounded, fun steps => ?_⟩
  induction steps with
  | zero =>
    rw [Nat.zero_add]
    exact start
  | succ steps inductionHypothesis =>
    rw [Nat.add_right_comm]
    exact matches_step meaning built inductionHypothesis

end Steps

end Simulation

/-- A graph executes the body it was built from. Its blocks hold the instructions of the body
in order, and behind them at most one jump or return that was added. Whatever the instructions
mean, body and graph take their steps side by side, where the body takes one step more at
most: after any number of steps both have performed the same instructions of the body in the
same worlds, have come to the same world, and have both halted, both got stuck, or neither. -/
theorem graph_executes_body (f : Function) (checkLabels : Bool) (g : FlowGraph)
    (built : ofFunction f checkLabels = .ok g) :
    (g.blocks.flatMap fun b => b.instrs.take (standing f b.name)) = f.instrs ∧
    (∀ b ∈ g.blocks, b.instrs.drop (standing f b.name) = [] ∨
      b.instrs.drop (standing f b.name) = [.ret []] ∨
      ∃ label, b.instrs.drop (standing f b.name) = [.jmp label]) ∧
    ∀ (W : Type) (meaning : Meaning W) (world : W), ∃ lead ≤ 1, ∀ steps,
      (bodyRun meaning f.body world (steps + lead)).view =
        (graphRun meaning g (standing f) world steps).view := by
  obtain ⟨distinct, whole⟩ := ofFunction_eq_ok built
  have blocks : g.blocks = closeBlocks (openedRuns f) := by rw [whole, blocks_ofBlocks]
  refine ⟨?_, ?_, ?_⟩
  · rw [blocks, flatMap_take_closeBlocks fun b => standing_eq distinct, flatMap_instrs_openedRuns]
  · intro b inside
    rw [blocks] at inside
    obtain ⟨source, isSource, last, rfl, added⟩ := mem_closeBlocks inside
    rw [endWith_name, standing_eq distinct isSource]
    rcases drop_endWith source last with none | one
    · exact .inl none
    · rcases added with rfl | ⟨next, _, rfl⟩
      · exact .inr (.inl one)
      · exact .inr (.inr ⟨next.name, one⟩)
  · intro W meaning world
    obtain ⟨lead, bounded, matched⟩ := matches_run meaning built world
    exact ⟨lead, bounded, fun steps => (matched steps).view_eq⟩

/-- A loop back to the first line, two labels in a row, and a branch to a label that the body
lacks and that reads like a name for a block without a label, of which there is one. -/
def wandering : Function where
  name := "main"
  params := [⟨"c", .primitive "bool"⟩]
  body := [
    .label "start",
    .label "again",
    .instr (.effect "print" ["c"]),
    .instr (.br "c" "start" "bb1"),
    .instr (.effect "print" []),
    .label "end"]

/-- Counts the instructions, and takes the first label up to a count of three. -/
def countdown : Meaning Nat where
  effect _ count := count + 1
  takesFirst _ count := count < 3

/-- The loop is left after three turns, for a label that leads nowhere. -/
theorem graph_executes_body_wandering :
    ∃ g, ofFunction wandering false = .ok g ∧
      (∃ lead ≤ 1, ∀ steps, (bodyRun countdown wandering.body 0 (steps + lead)).view =
        (graphRun countdown g (standing wandering) 0 steps).view) ∧
      (graphRun countdown g (standing wandering) 0 12).view.status = .stuck ∧
      (graphRun countdown g (standing wandering) 0 12).view.performed.length = 6 := by
  have facts : (ofFunction wandering false).toOption.any (fun _ => [0, 1].all fun lead =>
      (bodyRun countdown wandering.body 0 (12 + lead)).view.status = .stuck ∧
        (bodyRun countdown wandering.body 0 (12 + lead)).view.performed.length = 6) = true := by
    decide +kernel
  obtain ⟨g, built, facts⟩ := exists_ok_of_any facts
  obtain ⟨_, _, executes⟩ := graph_executes_body wandering false g built
  obtain ⟨lead, bounded, agree⟩ := executes Nat countdown 0
  have listed : lead ∈ [0, 1] := by
    simp only [List.mem_cons, List.not_mem_nil, or_false]
    omega
  have reached := of_decide_eq_true (List.all_eq_true.mp facts lead listed)
  rw [agree] at reached
  exact ⟨g, built, ⟨lead, bounded, agree⟩, reached⟩

end SsaForm.FlowGraph
