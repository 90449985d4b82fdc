import SsaForm.Proofs.FlowGraph.Layout

/-!
# Functions that are refused

Only labels keep a function from having a graph. The names that construction makes up differ
from one another and from every label of the body, so a name is repeated among the blocks
where a label is repeated in the body, and a branch leads nowhere in the graph where the body
lacks its label. The terminators that construction adds lead to the next block, so the first
edge that leads nowhere is a branch or a jump of the body.
-/

namespace SsaForm

theorem exists_of_filterMap_eq_append {α β : Type} {select : α → Option β} {items : List α}
    {before following : List β} {b : β} (parts : items.filterMap select = before ++ b :: following) :
    ∃ front a back, items = front ++ a :: back ∧ select a = some b ∧
      front.filterMap select = before := by
  obtain ⟨front, others, rfl, first, rest⟩ := List.filterMap_eq_append_iff.mp parts
  obtain ⟨skipped, a, back, rfl, dropped, selected, _⟩ := List.filterMap_eq_cons_iff.mp rest
  refine ⟨front ++ skipped, a, back, by rw [List.append_assoc], selected, ?_⟩
  rw [List.filterMap_append, first, List.filterMap_eq_nil_iff.mpr dropped, List.append_nil]

/-- The instruction is a branch or a jump, and the label is one of its labels. -/
def Instr.LeadsTo (i : Instr) (label : String) : Prop :=
  (i.op = "br" ∨ i.op = "jmp") ∧ label ∈ i.labels

theorem Instr.targets_eq (i : Instr) :
    i.targets = if i.op = "br" ∨ i.op = "jmp" then i.labels else [] := by
  rw [targets, terminator?, Terminator.ofName?]
  split_ifs <;> simp_all

theorem Instr.mem_targets {i : Instr} {label : String} : label ∈ i.targets ↔ i.LeadsTo label := by
  rw [targets_eq, LeadsTo]
  split_ifs <;> simp_all

theorem Instr.LeadsTo.isTerminator {i : Instr} {label : String} (leads : i.LeadsTo label) :
    i.isTerminator = true := by
  obtain ⟨branch | jump, _⟩ := leads
  · have ends : i.terminator? = some .br := Terminator.ofName?_eq_some.mpr branch
    rw [Instr.isTerminator, ends]
    rfl
  · have ends : i.terminator? = some .jmp := Terminator.ofName?_eq_some.mpr jump
    rw [Instr.isTerminator, ends]
    rfl

theorem Block.targets_concat {b : Block} {done : List Instr} {i : Instr}
    (whole : b.instrs = done ++ [i]) : b.targets = i.targets := by
  rw [targets, last?, whole, List.getLast?_concat]
  rfl

/-- Only the last instruction of a block leads anywhere. -/
theorem Block.Ended.mem_targets {b : Block} (ended : b.Ended) {i : Instr} {label : String}
    (listed : i ∈ b.instrs) (leads : i.LeadsTo label) : label ∈ b.targets := by
  obtain ⟨done, last, whole, _, plain⟩ := ended
  rw [targets_concat whole, Instr.mem_targets]
  rw [whole, List.mem_append, List.mem_singleton] at listed
  rcases listed with earlier | rfl
  · cases (plain i earlier).symm.trans leads.isTerminator
  · exact leads

namespace Function

/-- The label stands a second time in the body, and no label does so before. -/
def FirstRepeated (f : Function) (name : String) : Prop :=
  ∃ before following, f.body = before ++ .label name :: following ∧ .label name ∈ before ∧
    (before.filterMap Item.label?).Nodup

/-- The body holds an instruction behind given lines, which is the first to lead to a label
that the body lacks, and the label is the first such label of the instruction. -/
structure FirstStray (f : Function) (before : List Item) (i : Instr) (target : String) : Prop where
  placed : ∃ following, f.body = before ++ .instr i :: following
  earlier : ∀ j label, .instr j ∈ before → j.LeadsTo label → label ∈ f.labels
  leaves : i.op = "br" ∨ i.op = "jmp"
  first : ∃ front back, i.labels = front ++ target :: back ∧ ∀ label ∈ front, label ∈ f.labels
  stray : target ∉ f.labels

namespace FirstStray

variable {f : Function} {before : List Item} {i : Instr} {target : String}
  (first : f.FirstStray before i target)

include first

theorem mem_body : .instr i ∈ f.body := by
  obtain ⟨following, body⟩ := first.placed
  exact body ▸ List.mem_append_right _ List.mem_cons_self

theorem mem_body_of_earlier {item : Item} (earlier : item ∈ before) : item ∈ f.body := by
  obtain ⟨following, body⟩ := first.placed
  exact body ▸ List.mem_append_left _ earlier

theorem leadsTo : i.LeadsTo target := by
  obtain ⟨front, back, labels, _⟩ := first.first
  exact ⟨first.leaves, labels ▸ List.mem_append_right _ List.mem_cons_self⟩

end FirstStray

end Function

namespace FlowGraph

section Repeated

theorem firstRepeatAfter?_eq_some {seen names : List String} {name : String} :
    firstRepeatAfter? seen names = some name ↔
      ∃ before following, names = before ++ name :: following ∧ name ∈ before ++ seen ∧
        before.Nodup ∧ ∀ label ∈ before, label ∉ seen := by
  fun_induction firstRepeatAfter? seen names with
  | case1 => simp
  | case2 seen first rest repeated =>
    constructor
    · rintro ⟨⟩
      exact ⟨[], rest, rfl, repeated, .nil, by simp⟩
    · rintro ⟨_ | ⟨label, before⟩, following, whole, _, _, unseen⟩
      · cases whole
        rfl
      · cases whole
        exact absurd repeated (unseen first List.mem_cons_self)
  | case3 seen first rest fresh inductionHypothesis =>
    rw [inductionHypothesis]
    constructor
    · rintro ⟨before, following, rfl, repeats, distinct, unseen⟩
      refine ⟨first :: before, following, rfl, by simpa [or_left_comm] using repeats, ?_, ?_⟩
      · exact List.nodup_cons.mpr ⟨fun later => unseen first later List.mem_cons_self, distinct⟩
      · refine List.forall_mem_cons.mpr ⟨fresh, fun label later inSeen => ?_⟩
        exact unseen label later (List.mem_cons_of_mem _ inSeen)
    · rintro ⟨_ | ⟨label, before⟩, following, whole, repeats, distinct, unseen⟩
      · cases whole
        exact absurd repeats fresh
      · cases whole
        obtain ⟨apart, others⟩ := List.nodup_cons.mp distinct
        refine ⟨before, following, rfl, by simpa [or_left_comm] using repeats, others, ?_⟩
        intro label later inSeen
        rcases List.mem_cons.mp inSeen with rfl | earlier
        · exact apart later
        · exact unseen label (List.mem_cons_of_mem _ later) earlier

/-- Names that are made up are never repeated, so only labels are. -/
theorem firstRepeatAfter?_nameRuns {used : KeySet String} {seen : List String} {runs : List Run}
    (taken : ∀ name ∈ seen, name ∈ used) (labels : ∀ name ∈ runs.filterMap Run.label, name ∈ used) :
    firstRepeatAfter? seen ((nameRuns used runs).map Block.name) =
      firstRepeatAfter? seen (runs.filterMap Run.label) := by
  induction runs generalizing used seen with
  | nil => rfl
  | cons run rest inductionHypothesis =>
    obtain ⟨_ | name, instrs⟩ := run
    · obtain ⟨name, isFresh⟩ : ∃ name, freshName "bb" used = name := ⟨_, rfl⟩
      have fresh : name ∉ used := isFresh ▸ freshName_not_mem "bb" used
      have more : ∀ label, label ∈ used → label ∈ used.insert name :=
        fun label inUse => Std.ExtTreeSet.mem_insert.mpr (.inr inUse)
      rw [nameRuns, isFresh, List.map_cons, firstRepeatAfter?, if_neg (fresh ∘ taken name),
        inductionHypothesis, List.filterMap_cons_none rfl]
      · apply firstRepeatAfter?_congr
        intro label later
        refine List.mem_cons.trans (or_iff_right ?_)
        rintro rfl
        exact fresh (labels label later)
      · refine List.forall_mem_cons.mpr ⟨Std.ExtTreeSet.mem_insert_self, ?_⟩
        exact fun label earlier => more label (taken label earlier)
      · exact fun label later => more label (labels label later)
    · obtain ⟨inUse, others⟩ := List.forall_mem_cons.mp labels
      have step := inductionHypothesis (List.forall_mem_cons.mpr ⟨inUse, taken⟩) others
      simp [nameRuns, firstRepeatAfter?, step]

theorem firstRepeat?_namedRuns (f : Function) :
    firstRepeat? ((namedRuns f).map Block.name) = firstRepeat? f.labels := by
  rw [Function.labels, ← Run.filterMap_label_split]
  apply firstRepeatAfter?_nameRuns
  · exact fun name seen => absurd seen List.not_mem_nil
  · intro name labelled
    rw [Run.filterMap_label_split] at labelled
    exact label_mem_bodyLabels (Function.mem_labels.mp labelled)

theorem firstRepeat?_labels {f : Function} {name : String} :
    firstRepeat? f.labels = some name ↔ f.FirstRepeated name := by
  rw [firstRepeat?, firstRepeatAfter?_eq_some]
  constructor
  · rintro ⟨before, following, parts, repeats, distinct, _⟩
    obtain ⟨front, item, back, whole, labelled, rfl⟩ := exists_of_filterMap_eq_append parts
    cases item with
    | instr i => cases labelled
    | label other =>
      cases labelled
      rw [List.append_nil, Item.mem_filterMap_label?] at repeats
      exact ⟨front, back, whole, repeats, distinct⟩
  · rintro ⟨before, following, whole, repeats, distinct⟩
    refine ⟨before.filterMap Item.label?, following.filterMap Item.label?, ?_, ?_, distinct, ?_⟩
    · rw [Function.labels, whole, List.filterMap_append]
      rfl
    · rwa [List.append_nil, Item.mem_filterMap_label?]
    · simp

theorem ofFunction_eq_repeated {f : Function} {checkLabels : Bool} {name : String} :
    ofFunction f checkLabels = .error (.repeatedLabel name) ↔ f.FirstRepeated name := by
  rw [← firstRepeat?_labels, ← firstRepeat?_namedRuns, ofFunction]
  cases repeated : firstRepeat? ((namedRuns f).map Block.name) with
  | some other => simp [build_of_repeated repeated, Except.map]
  | none =>
    rw [build_of_distinct (firstRepeat?_eq_none.mp repeated)]
    simp only [reduceCtorEq, iff_false]
    split
    next =>
      split
      next => simp [Except.map]
      next => simp [Except.map]
    next => simp [Except.map]

theorem distinct_namedRuns {f : Function} (distinct : f.labels.Nodup) :
    ((namedRuns f).map Block.name).Nodup := by
  rwa [← firstRepeat?_eq_none, firstRepeat?_namedRuns, firstRepeat?_eq_none]

theorem exists_ofFunction {f : Function} (distinct : f.labels.Nodup) :
    ∃ g, ofFunction f false = .ok g := by
  have built : build f false = .ok _ :=
    build_eq_ok.mpr ⟨distinct_namedRuns distinct, rfl, Bool.noConfusion⟩
  exact ⟨_, congrArg (Except.map Construction.graph) built⟩

end Repeated

/-- The body of a function holds an instruction behind given lines, and a block of the graph
ends with it: what the body holds before it stands in the blocks in front and in front of it in
its block. -/
def Ends (g : FlowGraph) (f : Function) (before : List Item) (i : Instr) (name : String) : Prop :=
  ∃ front done rest, g.blocks = front ++ ⟨name, done ++ [i]⟩ :: rest ∧
    standing f name = done.length + 1 ∧
    before.filterMap Item.instr? =
      (front.flatMap fun b => b.instrs.take (standing f b.name)) ++ done

theorem Indexed.dangling?_eq_some {g : FlowGraph} (indexed : g.Indexed) {block target : String} :
    g.dangling? = some (block, target) ↔
      ∃ front b rest, g.blocks = front ++ b :: rest ∧ b.name = block ∧
        (∀ c ∈ front, ∀ label ∈ c.targets, label ∈ g.names) ∧
        ∃ first back, b.targets = first ++ target :: back ∧ (∀ label ∈ first, label ∈ g.names) ∧
          target ∉ g.names := by
  simp only [dangling?, List.findSome?_eq_some_iff, indexed.mem_index]
  constructor
  · rintro ⟨front, b, rest, blocks, found, resolved⟩
    obtain ⟨label, first, same⟩ := Option.map_eq_some_iff.mp found
    cases same
    obtain ⟨stray, known, back, targets, others⟩ := List.find?_eq_some_iff_append.mp first
    refine ⟨front, b, rest, blocks, rfl, ?_, known, back, targets, ?_, by simpa using stray⟩
    · simpa using resolved
    · simpa using others
  · rintro ⟨front, b, rest, blocks, rfl, resolved, known, back, targets, others, stray⟩
    refine ⟨front, b, rest, blocks, Option.map_eq_some_iff.mpr ⟨target, ?_, rfl⟩, ?_⟩
    · apply List.find?_eq_some_iff_append.mpr
      exact ⟨by simpa using stray, known, back, targets, by simpa using others⟩
    · simpa using resolved

section Checked

variable {f : Function} {g : FlowGraph} (built : ofFunction f false = .ok g)

include built

theorem checked_of_resolved (resolved : g.dangling? = none) : ofFunction f true = .ok g := by
  obtain ⟨distinct, rfl⟩ := ofFunction_eq_ok built
  have checked : build f true = .ok _ := build_eq_ok.mpr ⟨distinct, rfl, fun _ => resolved⟩
  exact congrArg (Except.map Construction.graph) checked

theorem checked_of_dangling {block target : String}
    (dangling : g.dangling? = some (block, target)) :
    ofFunction f true = .error (.unknownLabel block target) := by
  obtain ⟨distinct, rfl⟩ := ofFunction_eq_ok built
  change (constructed f).graph.dangling? = _ at dangling
  rw [ofFunction, build_of_distinct distinct, dangling]
  rfl

theorem checked_eq_error {fault : Fault} :
    ofFunction f true = .error fault ↔
      ∃ block target, g.dangling? = some (block, target) ∧ fault = .unknownLabel block target := by
  cases dangling : g.dangling? with
  | none => simp [checked_of_resolved built dangling]
  | some pair =>
    rw [checked_of_dangling built dangling, Except.error.injEq]
    constructor
    · rintro rfl
      exact ⟨pair.1, pair.2, rfl, rfl⟩
    · rintro ⟨block, target, same, rfl⟩
      cases same
      rfl

/-- A block that leads to a label that no block bears is ended by the body itself. -/
theorem standing_of_stray {b : Block} (inside : b ∈ g.blocks) {target : String}
    (targeted : target ∈ b.targets) (stray : target ∉ g.names) :
    standing f b.name = b.instrs.length := by
  obtain ⟨distinct, rfl⟩ := ofFunction_eq_ok built
  obtain ⟨source, isSource, last, rfl, added⟩ := mem_closeBlocks inside
  rw [endWith_name, standing_eq distinct isSource]
  rcases endWith_instrs source last with ⟨_, same⟩ | ⟨_, extended⟩
  · rw [same]
  · rw [Block.targets, Block.last?, extended, List.getLast?_concat] at targeted
    rcases added with rfl | ⟨next, behind, rfl⟩
    · cases targeted
    · refine absurd ?_ stray
      rw [List.mem_singleton.mp targeted, names_closed]
      exact List.mem_map_of_mem (List.mem_of_mem_tail behind)

/-- The instructions of the body, block by block. -/
theorem flatMap_own :
    (g.blocks.flatMap fun b => b.instrs.take (standing f b.name)) = f.instrs := by
  obtain ⟨distinct, rfl⟩ := ofFunction_eq_ok built
  rw [blocks_ofBlocks, flatMap_take_closeBlocks fun b => standing_eq distinct,
    flatMap_instrs_openedRuns]

theorem known_iff {i : Instr} {label : String} (listed : .instr i ∈ f.body)
    (leads : i.LeadsTo label) : label ∈ g.names ↔ label ∈ f.labels :=
  mem_names_iff_mem_labels built (mem_bodyLabels listed leads.2)

theorem ends_of_dangling {block target : String} (dangling : g.dangling? = some (block, target)) :
    ∃ before i, f.FirstStray before i target ∧ g.Ends f before i block := by
  have wellFormed := wellFormed_ofFunction built
  obtain ⟨front, b, rest, blocks, rfl, resolved, known, back, targets, others, stray⟩ :=
    wellFormed.indexed.dangling?_eq_some.mp dangling
  have inside : b ∈ g.blocks := blocks ▸ List.mem_append_right _ List.mem_cons_self
  have targeted : target ∈ b.targets := targets ▸ List.mem_append_right _ List.mem_cons_self
  have own := standing_of_stray built inside targeted stray
  obtain ⟨done, i, whole, _, plain⟩ := wellFormed.ended b inside
  rw [Block.targets_concat whole] at targets targeted
  have leads := Instr.mem_targets.mp targeted
  -- The body holds the instruction where the blocks do.
  have parts : f.body.filterMap Item.instr? =
      ((front.flatMap fun c => c.instrs.take (standing f c.name)) ++ done) ++
        i :: rest.flatMap fun c => c.instrs.take (standing f c.name) := by
    rw [← Function.instrs, ← flatMap_own built, blocks, List.flatMap_append, List.flatMap_cons, own,
      List.take_length, whole]
    simp
  obtain ⟨before, item, following, body, selected, standing⟩ := exists_of_filterMap_eq_append parts
  cases item with
  | label name => cases selected
  | instr j =>
    cases selected
    have inBody : .instr i ∈ f.body := body ▸ List.mem_append_right _ List.mem_cons_self
    have labels : i.labels = known ++ target :: back := by
      rwa [Instr.targets_eq, if_pos leads.1] at targets
    refine ⟨before, i, ⟨⟨following, body⟩, ?_, leads.1, ⟨known, back, labels, ?_⟩, ?_⟩,
      front, done, rest, ?_, ?_, standing⟩
    · intro j label earlier leadsToo
      have listed := Item.mem_filterMap_instr?.mpr earlier
      rw [standing, List.mem_append, List.mem_flatMap] at listed
      rcases listed with ⟨c, inFront, taken⟩ | inDone
      · have isBlock : c ∈ g.blocks := blocks ▸ List.mem_append_left _ inFront
        have reached := (wellFormed.ended c isBlock).mem_targets (List.mem_of_mem_take taken) leadsToo
        refine (known_iff built ?_ leadsToo).mp (resolved c inFront label reached)
        exact body ▸ List.mem_append_left _ earlier
      · cases (plain j inDone).symm.trans leadsToo.isTerminator
    · intro label listed
      refine (known_iff built inBody ⟨leads.1, ?_⟩).mp (others label listed)
      exact labels ▸ List.mem_append_left _ listed
    · exact fun labelled => stray ((known_iff built inBody leads).mpr labelled)
    · rw [blocks, ← whole]
    · rw [own, whole, List.length_append, List.length_singleton]

theorem dangling_of_ends {before : List Item} {i : Instr} {block target : String}
    (first : f.FirstStray before i target) (ends : g.Ends f before i block) :
    g.dangling? = some (block, target) := by
  have wellFormed := wellFormed_ofFunction built
  obtain ⟨known, back, labels, others⟩ := first.first
  obtain ⟨front, done, rest, blocks, own, standing⟩ := ends
  apply wellFormed.indexed.dangling?_eq_some.mpr
  refine ⟨front, _, rest, blocks, rfl, ?_, known, back, ?_, ?_, ?_⟩
  · intro c inFront label targeted
    by_contra stray
    have isBlock : c ∈ g.blocks := blocks ▸ List.mem_append_left _ inFront
    have whole := standing_of_stray built isBlock targeted stray
    obtain ⟨_, j, instrs, _, _⟩ := wellFormed.ended c isBlock
    rw [Block.targets_concat instrs, Instr.mem_targets] at targeted
    have earlier : .instr j ∈ before := by
      rw [← Item.mem_filterMap_instr?, standing]
      refine List.mem_append_left _ (List.mem_flatMap.mpr ⟨c, inFront, ?_⟩)
      rw [whole, List.take_length, instrs]
      exact List.mem_append_right _ List.mem_cons_self
    apply stray
    rw [known_iff built (first.mem_body_of_earlier earlier) targeted]
    exact first.earlier j label earlier targeted
  · rw [Block.targets_concat rfl, Instr.targets_eq, if_pos first.leaves, labels]
  · intro label listed
    refine (known_iff built first.mem_body ⟨first.leaves, ?_⟩).mpr (others label listed)
    exact labels ▸ List.mem_append_left _ listed
  · rw [known_iff built first.mem_body first.leadsTo]
    exact first.stray

/-- Some edge leads nowhere exactly if the body lacks the label of a branch or a jump. -/
theorem dangling_iff :
    g.dangling? ≠ none ↔ ∃ i ∈ f.instrs, ∃ label, i.LeadsTo label ∧ label ∉ f.labels := by
  constructor
  · intro some
    obtain ⟨⟨block, target⟩, dangling⟩ := Option.ne_none_iff_exists'.mp some
    obtain ⟨before, i, first, _⟩ := ends_of_dangling built dangling
    exact ⟨i, Item.mem_filterMap_instr?.mpr first.mem_body, target, first.leadsTo, first.stray⟩
  · rintro ⟨i, listed, label, leads, stray⟩ resolved
    have inBody := Item.mem_filterMap_instr?.mp listed
    rw [← flatMap_own built] at listed
    obtain ⟨b, inside, taken⟩ := List.mem_flatMap.mp listed
    have wellFormed := wellFormed_ofFunction built
    have targeted := (wellFormed.ended b inside).mem_targets (List.mem_of_mem_take taken) leads
    refine stray ((known_iff built inBody leads).mp ?_)
    exact wellFormed.indexed.dangling?_eq_none.mp resolved b inside label targeted

end Checked

/-- Construction fails for the labels of a body and for nothing else. Whether or not labels are
checked, a function is refused for a repeated label exactly if some label stands twice in its
body, and the fault names the one whose second place comes first. If no label is repeated,
construction without the check succeeds. With the check it then fails exactly if some branch or
jump of the body, live or not, has a label that the body lacks; the fault names the first such
label of the body and the block that ends with its instruction. -/
theorem refused_only_for_labels (f : Function) :
    (∀ checkLabels, (∃ name, ofFunction f checkLabels = .error (.repeatedLabel name)) ↔
      ¬ f.labels.Nodup) ∧
    (∀ checkLabels name, ofFunction f checkLabels = .error (.repeatedLabel name) ↔
      f.FirstRepeated name) ∧
    (f.labels.Nodup → ∃ g, ofFunction f false = .ok g ∧
      ((∃ fault, ofFunction f true = .error fault) ↔
        ∃ i ∈ f.instrs, ∃ label, i.LeadsTo label ∧ label ∉ f.labels) ∧
      ∀ fault, ofFunction f true = .error fault ↔
        ∃ before i block target, fault = .unknownLabel block target ∧
          f.FirstStray before i target ∧ g.Ends f before i block) := by
  refine ⟨?_, fun _ _ => ofFunction_eq_repeated, ?_⟩
  · intro checkLabels
    simp only [ofFunction_eq_repeated, ← firstRepeat?_labels]
    rw [← firstRepeat?_eq_none, ← ne_eq, Option.ne_none_iff_exists']
  · intro distinct
    obtain ⟨g, built⟩ := exists_ofFunction distinct
    refine ⟨g, built, ?_, ?_⟩
    · rw [← dangling_iff built, Option.ne_none_iff_exists']
      simp only [checked_eq_error built]
      constructor
      · rintro ⟨_, block, target, dangling, _⟩
        exact ⟨_, dangling⟩
      · rintro ⟨pair, dangling⟩
        exact ⟨_, pair.1, pair.2, dangling, rfl⟩
    · intro fault
      rw [checked_eq_error built]
      constructor
      · rintro ⟨block, target, dangling, rfl⟩
        obtain ⟨before, i, first, ends⟩ := ends_of_dangling built dangling
        exact ⟨before, i, block, target, rfl, first, ends⟩
      · rintro ⟨before, i, block, target, rfl, first, ends⟩
        exact ⟨block, target, dangling_of_ends built first ends, rfl⟩

/-- A loop to the first line, a dead jump to a label that reads like the name of a block, and a
dead branch to one that reads like the name of the entry. -/
def straying : Function where
  name := "main"
  params := [⟨"c", .primitive "bool"⟩]
  body := [
    .label "top",
    .instr (.br "c" "top" "end"),
    .instr (.effect "print" ["c"]),
    .instr (.jmp "bb1"),
    .label "end",
    .instr (.ret []),
    .instr (.br "c" "end" "entry1")]

/-- The block with the jump is not called as its label, and the jump is the first to blame. -/
theorem refused_only_for_labels_straying :
    straying.labels.Nodup ∧ ofFunction straying true = .error (.unknownLabel "bb2" "bb1") ∧
      ∃ g, ofFunction straying false = .ok g ∧ g.names = ["entry2", "top", "bb2", "end", "bb3"] ∧
        ∃ before i, straying.FirstStray before i "bb1" ∧ g.Ends straying before i "bb2" := by
  have distinct : straying.labels.Nodup := by decide +kernel
  have refused : ofFunction straying true = .error (.unknownLabel "bb2" "bb1") := by decide +kernel
  have names : (ofFunction straying false).toOption.any (fun g =>
      g.names = ["entry2", "top", "bb2", "end", "bb3"]) = true := by decide +kernel
  obtain ⟨_, _, succeeds⟩ := refused_only_for_labels straying
  obtain ⟨g, built, _, faults⟩ := succeeds distinct
  obtain ⟨before, i, block, target, same, first, ends⟩ := (faults _).mp refused
  cases same
  rw [built] at names
  exact ⟨distinct, refused, g, built, of_decide_eq_true names, before, i, first, ends⟩

theorem WellFormed.getElem?_successors {g : FlowGraph} (wellFormed : g.WellFormed) (name : String) :
    g.successors[name]? = g.successorSet? name := by
  rw [successorSet?]
  cases found : g.block? name with
  | some b =>
    obtain ⟨inside, rfl⟩ := wellFormed.block?_eq_some.mp found
    have key : b.name ∈ g.successors := mem_successors.mpr (mem_names.mpr ⟨b, inside, rfl⟩)
    rw [Relation.getElem?_eq_some_image key, wellFormed.image_successors inside]
    rfl
  | none =>
    apply Std.ExtTreeMap.getElem?_eq_none
    rw [mem_successors, mem_names]
    rintro ⟨b, inside, named⟩
    cases found.symm.trans (wellFormed.block?_eq_some.mpr ⟨inside, named⟩)

/-- The check of the labels and the collection of the edges agree. Of a graph that was built
without the check, the check leaves exactly what has edges, and leaves it as it is; otherwise
both report the same block and the same label. The edges have exactly the names of the blocks as
keys in both directions. The successors of a block are the labels that it goes on at, and the
predecessors are the successors read backwards. -/
theorem check_agrees_with_edges (f : Function) (g : FlowGraph)
    (built : ofFunction f false = .ok g) :
    (ofFunction f true = .ok g ↔ ∃ edges, g.edges = .ok edges) ∧
    (∀ block target, ofFunction f true = .error (.unknownLabel block target) ↔
      g.edges = .error (.danglingEdge block target)) ∧
    ∀ edges, g.edges = .ok edges →
      (∀ name, name ∈ edges.successors ↔ name ∈ g.names) ∧
      (∀ name, name ∈ edges.predecessors ↔ name ∈ g.names) ∧
      (∀ name, edges.successors[name]? = g.successorSet? name) ∧
      edges.predecessors = edges.successors.converse := by
  have wellFormed := wellFormed_ofFunction built
  refine ⟨?_, ?_, ?_⟩
  · cases dangling : g.dangling? with
    | none =>
      have collected := wellFormed.edges_of_resolved dangling
      exact iff_of_true (checked_of_resolved built dangling) ⟨_, collected⟩
    | some pair =>
      simp [checked_of_dangling built dangling, wellFormed.indexed.edges_of_dangling dangling]
  · intro block target
    cases dangling : g.dangling? with
    | none =>
      simp [checked_of_resolved built dangling, wellFormed.edges_of_resolved dangling]
    | some pair =>
      simp [checked_of_dangling built dangling, wellFormed.indexed.edges_of_dangling dangling]
  · intro edges found
    obtain ⟨resolved, hold⟩ := wellFormed.indexed.edges_eq_ok_iff.mp found
    obtain ⟨_, rfl⟩ := wellFormed.edges_eq_ok found
    exact ⟨hold.sources, hold.targets, wellFormed.getElem?_successors,
      wellFormed.predecessors_eq_converse resolved⟩

/-- The same body with the labels that it lacks at its end. -/
def completed : Function :=
  { straying with body := straying.body ++ [.label "bb1", .label "entry1"] }

theorem check_agrees_with_edges_straying :
    (∃ g, ofFunction straying false = .ok g ∧ g.edges = .error (.danglingEdge "bb2" "bb1")) ∧
    ∃ g edges, ofFunction completed false = .ok g ∧ ofFunction completed true = .ok g ∧
      g.edges = .ok edges ∧ "bb1" ∈ edges.successors.image "bb2" ∧
      edges.successors["bb3"]? = g.successorSet? "bb3" ∧
      edges.predecessors = edges.successors.converse := by
  have refused : ofFunction straying true = .error (.unknownLabel "bb2" "bb1") := by decide +kernel
  have stray : (ofFunction straying false).toOption.any (fun _ => true) = true := by decide +kernel
  have facts : (ofFunction completed false).toOption.any (fun g =>
      g.edges.toOption.any fun edges => "bb1" ∈ edges.successors.image "bb2") = true := by
    decide +kernel
  obtain ⟨g, built, _⟩ := exists_ok_of_any stray
  obtain ⟨h, builtToo, collected⟩ := exists_ok_of_any facts
  obtain ⟨edges, found, related⟩ := exists_ok_of_any collected
  obtain ⟨_, faults, _⟩ := check_agrees_with_edges straying g built
  obtain ⟨passes, _, holds⟩ := check_agrees_with_edges completed h builtToo
  obtain ⟨_, _, successors, converse⟩ := holds edges found
  exact ⟨⟨g, built, (faults "bb2" "bb1").mp refused⟩, h, edges, builtToo,
    passes.mpr ⟨edges, found⟩, found, of_decide_eq_true related, successors "bb3", converse⟩

end FlowGraph

end SsaForm
