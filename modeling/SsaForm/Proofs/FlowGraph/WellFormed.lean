import SsaForm.Proofs.FlowGraph.Index

/-!
# Well-formed graphs

In a well-formed graph the index is exact, so that the blocks have different names, every
block ends with its only terminator, and no block goes on at the entry. Every graph that is
built from a function is well-formed, and all its instructions stand in the body or were added
to leave a block.
-/

namespace SsaForm

theorem exists_ok_of_any {ε α : Type} {outcome : Except ε α} {test : α → Bool}
    (holds : outcome.toOption.any test = true) : ∃ a, outcome = .ok a ∧ test a = true := by
  cases outcome with
  | error fault => cases holds
  | ok a => exact ⟨a, rfl, holds⟩

/-- Only the last instruction may be a terminator. -/
def Terminal (instrs : List Instr) : Prop :=
  ∀ i ∈ instrs.dropLast, i.isTerminator = false

/-- The block ends with its only terminator. -/
def Block.Ended (b : Block) : Prop :=
  ∃ body last, b.instrs = body ++ [last] ∧ last.isTerminator = true ∧
    ∀ i ∈ body, i.isTerminator = false

/-- The index is exact, control leaves every block at its end, and never to the entry. -/
structure FlowGraph.WellFormed (g : FlowGraph) : Prop where
  indexed : g.Indexed
  ended : ∀ b ∈ g.blocks, b.Ended
  unentered : ∀ b ∈ g.blocks, ∀ name, g.entry? = some name → name ∉ b.targets

theorem FlowGraph.WellFormed.distinct {g : FlowGraph} (wellFormed : g.WellFormed) :
    g.names.Nodup :=
  wellFormed.indexed.distinct

namespace Run

theorem takeOpen_of_forall (property : List Instr → Prop) {runs : List Run}
    (empty : property []) (holds : ∀ run ∈ runs, property run.instrs) :
    property (takeOpen runs).1 ∧ ∀ run ∈ (takeOpen runs).2, property run.instrs := by
  fun_cases takeOpen runs with
  | case1 instrs rest =>
    exact ⟨holds _ List.mem_cons_self, fun run later => holds run (List.mem_cons_of_mem _ later)⟩
  | case2 => exact ⟨empty, holds⟩

theorem split_instr (i : Instr) (rest : List Item) :
    split (.instr i :: rest) =
      if i.isTerminator then ⟨none, [i]⟩ :: split rest
      else ⟨none, i :: (takeOpen (split rest)).1⟩ :: (takeOpen (split rest)).2 := by
  rw [split]

/-- A run ends behind its first terminator. -/
theorem split_terminal (body : List Item) : ∀ run ∈ split body, Terminal run.instrs := by
  induction body with
  | nil => simp [split]
  | cons item rest inductionHypothesis =>
    obtain ⟨openTerminal, restTerminal⟩ :=
      takeOpen_of_forall Terminal (by simp [Terminal]) inductionHypothesis
    cases item with
    | label name => exact List.forall_mem_cons.mpr ⟨openTerminal, restTerminal⟩
    | instr i =>
      rw [split_instr]
      split
      next => exact List.forall_mem_cons.mpr ⟨by simp [Terminal], inductionHypothesis⟩
      next continues =>
        refine List.forall_mem_cons.mpr ⟨?_, restTerminal⟩
        cases gathered : (takeOpen (split rest)).1 with
        | nil => simp [Terminal]
        | cons next others =>
          rw [gathered] at openTerminal
          simpa [Terminal, continues, gathered] using openTerminal

theorem split_subset (body : List Item) :
    ∀ run ∈ split body, ∀ i ∈ run.instrs, Item.instr i ∈ body := by
  induction body with
  | nil => simp [split]
  | cons item rest inductionHypothesis =>
    have within : ∀ run ∈ split rest, ∀ i ∈ run.instrs, Item.instr i ∈ item :: rest :=
      fun run found i inside => List.mem_cons_of_mem _ (inductionHypothesis run found i inside)
    obtain ⟨openWithin, restWithin⟩ :=
      takeOpen_of_forall (fun instrs => ∀ i ∈ instrs, Item.instr i ∈ item :: rest)
        (by simp) within
    cases item with
    | label name => exact List.forall_mem_cons.mpr ⟨openWithin, restWithin⟩
    | instr i =>
      rw [split_instr]
      split
      next => exact List.forall_mem_cons.mpr ⟨by simp, within⟩
      next =>
        exact List.forall_mem_cons.mpr ⟨List.forall_mem_cons.mpr ⟨by simp, openWithin⟩, restWithin⟩

end Run

namespace FlowGraph

theorem map_instrs_nameRuns (used : KeySet String) (runs : List Run) :
    (nameRuns used runs).map Block.instrs = runs.map Run.instrs := by
  fun_induction nameRuns used runs <;> simp_all

theorem endWith_instrs (b : Block) (i : Instr) :
    (b.terminator?.isSome ∧ (endWith b i).instrs = b.instrs) ∨
      (b.terminator? = none ∧ (endWith b i).instrs = b.instrs ++ [i]) := by
  rw [endWith]
  split
  next ended => exact .inl ⟨ended, rfl⟩
  next continues => exact .inr ⟨by simpa using continues, rfl⟩

theorem endWith_ended {b : Block} {i : Instr} (terminal : Terminal b.instrs)
    (last : i.isTerminator = true) : (endWith b i).Ended := by
  rcases endWith_instrs b i with ⟨ended, same⟩ | ⟨continues, extended⟩
  · rw [Block.terminator?, Block.last?] at ended
    cases found : b.instrs.getLast? with
    | none => simp [found] at ended
    | some final =>
      obtain ⟨body, whole⟩ := List.getLast?_eq_some_iff.mp found
      rw [found] at ended
      refine ⟨body, final, by rw [same, whole], ended, ?_⟩
      simpa [Terminal, whole] using terminal
  · refine ⟨b.instrs, i, extended, last, ?_⟩
    cases found : b.instrs.getLast? with
    | none => simp [List.getLast?_eq_none_iff.mp found]
    | some final =>
      obtain ⟨body, whole⟩ := List.getLast?_eq_some_iff.mp found
      simp only [Block.terminator?, Block.last?, found, Option.bind_some] at continues
      rw [Terminal, whole, List.dropLast_concat] at terminal
      rw [whole]
      intro j inside
      rcases List.mem_append.mp inside with earlier | final
      · exact terminal j earlier
      · rw [List.mem_singleton.mp final, Instr.isTerminator, continues]
        rfl

theorem mem_labels_of_mem_targets {i : Instr} {label : String} (targeted : label ∈ i.targets) :
    label ∈ i.labels := by
  rw [Instr.targets] at targeted
  split at targeted
  next => exact targeted
  next => exact targeted
  next => cases targeted
  next => cases targeted

theorem exists_mention_of_mem_targets {b : Block} {target : String} (reached : target ∈ b.targets) :
    ∃ i ∈ b.instrs, target ∈ i.labels := by
  rw [Block.targets, Block.last?] at reached
  cases found : b.instrs.getLast? with
  | none => simp [found] at reached
  | some final =>
    rw [found] at reached
    exact ⟨final, List.mem_of_getLast? found, mem_labels_of_mem_targets reached⟩

/-- A block is closed with a return or with a jump to a block behind the first. -/
theorem mem_closeBlocks {blocks : List Block} {closed : Block}
    (found : closed ∈ closeBlocks blocks) :
    ∃ b ∈ blocks, ∃ i, closed = endWith b i ∧
      (i = .ret [] ∨ ∃ next ∈ blocks.tail, i = .jmp next.name) := by
  fun_induction closeBlocks blocks with
  | case1 => simp at found
  | case2 b => exact ⟨b, List.mem_cons_self, .ret [], List.mem_singleton.mp found, .inl rfl⟩
  | case3 b next rest inductionHypothesis =>
    rcases List.mem_cons.mp found with rfl | later
    · exact ⟨b, List.mem_cons_self, .jmp next.name, rfl, .inr ⟨next, List.mem_cons_self, rfl⟩⟩
    · obtain ⟨source, inside, i, whole, returns | ⟨target, behind, jumps⟩⟩ :=
        inductionHypothesis later
      · exact ⟨source, List.mem_cons_of_mem _ inside, i, whole, .inl returns⟩
      · exact ⟨source, List.mem_cons_of_mem _ inside, i, whole,
          .inr ⟨target, List.mem_of_mem_tail behind, jumps⟩⟩

/-- What is added to leave a block mentions no block in the first place. -/
theorem unmentioned_closeBlocks {blocks : List Block} (distinct : (blocks.map Block.name).Nodup)
    {first : String} (isFirst : (blocks.map Block.name).head? = some first)
    (unmentioned : ∀ b ∈ blocks, ∀ i ∈ b.instrs, first ∉ i.labels) :
    ∀ b ∈ closeBlocks blocks, ∀ i ∈ b.instrs, first ∉ i.labels := by
  intro b found i inBlock mentioned
  obtain ⟨source, inside, last, rfl, added⟩ := mem_closeBlocks found
  rcases endWith_instrs source last with ⟨_, same⟩ | ⟨_, extended⟩
  · exact unmentioned source inside i (same ▸ inBlock) mentioned
  · rw [extended, List.mem_append, List.mem_singleton] at inBlock
    rcases inBlock with earlier | rfl
    · exact unmentioned source inside i earlier mentioned
    · rcases added with rfl | ⟨next, behind, rfl⟩
      · simp [Instr.ret] at mentioned
      · have goal : first = next.name := List.mem_singleton.mp mentioned
        cases blocks with
        | nil => simp at behind
        | cons head rest =>
          simp only [List.map_cons, List.head?_cons, Option.some.injEq] at isFirst
          simp only [List.map_cons, List.nodup_cons] at distinct
          apply distinct.1
          rw [isFirst, goal]
          exact List.mem_map_of_mem behind

/-- Closing blocks makes a well-formed graph of indexed blocks whose first name is nowhere
mentioned. -/
theorem wellFormed_closeBlocks {g : FlowGraph} {blocks : List Block}
    (closed : g.blocks = closeBlocks blocks) (indexed : g.Indexed)
    (terminal : ∀ b ∈ blocks, Terminal b.instrs)
    (unmentioned : ∀ first, (blocks.map Block.name).head? = some first →
      ∀ b ∈ blocks, ∀ i ∈ b.instrs, first ∉ i.labels) : g.WellFormed := by
  have names : g.names = blocks.map Block.name := by
    rw [FlowGraph.names, closed, map_name_closeBlocks]
  refine ⟨indexed, ?_, ?_⟩
  · intro b found
    rw [closed] at found
    obtain ⟨source, inside, i, rfl, returns | ⟨next, _, jumps⟩⟩ := mem_closeBlocks found
    · exact endWith_ended (terminal source inside) (by rw [returns]; rfl)
    · exact endWith_ended (terminal source inside) (by rw [jumps]; rfl)
  · intro b found name isEntry targeted
    rw [closed] at found
    rw [ entry?, names] at isEntry
    obtain ⟨i, inBlock, mentioned⟩ := exists_mention_of_mem_targets targeted
    exact unmentioned_closeBlocks (names ▸ indexed.distinct) isEntry (unmentioned name isEntry) b
      found i inBlock mentioned

theorem mem_bodyLabels {body : List Item} {i : Instr} {label : String}
    (inBody : Item.instr i ∈ body) (mentioned : label ∈ i.labels) : label ∈ bodyLabels body :=
  KeySet.mem_ofList.mpr (List.mem_flatMap.mpr ⟨.instr i, inBody, mentioned⟩)

theorem label_mem_bodyLabels {body : List Item} {name : String} (inBody : .label name ∈ body) :
    name ∈ bodyLabels body :=
  KeySet.mem_ofList.mpr (List.mem_flatMap.mpr ⟨.label name, inBody, List.mem_singleton_self name⟩)

/-- The blocks of the runs of a body, before an entry is put in front of them. -/
def namedRuns (f : Function) : List Block :=
  nameRuns (bodyLabels f.body) (Run.split f.body)

theorem mem_namedRuns {f : Function} {b : Block} (found : b ∈ namedRuns f) :
    ∃ run ∈ Run.split f.body, run.instrs = b.instrs := by
  have inInstrs : b.instrs ∈ (namedRuns f).map Block.instrs := List.mem_map_of_mem found
  rw [namedRuns, map_instrs_nameRuns] at inInstrs
  exact List.mem_map.mp inInstrs

/-- The blocks of a body, with an entry that nothing mentions. -/
def openedRuns (f : Function) : List Block :=
  if entryMentioned (namedRuns f) then
    ⟨freshName "entry" (bodyLabels f.body ∪ .ofList ((namedRuns f).map Block.name)), []⟩ ::
      namedRuns f
  else
    namedRuns f

theorem mem_openedRuns {f : Function} {b : Block} (found : b ∈ openedRuns f) :
    b.instrs = [] ∨ b ∈ namedRuns f := by
  rw [openedRuns] at found
  split at found
  next =>
    rcases List.mem_cons.mp found with rfl | later
    · exact .inl rfl
    · exact .inr later
  next => exact .inr found

theorem mem_body_of_opened {f : Function} {b : Block} {i : Instr} (inside : b ∈ openedRuns f)
    (inBlock : i ∈ b.instrs) : Item.instr i ∈ f.body := by
  rcases mem_openedRuns inside with empty | inRuns
  · rw [empty] at inBlock
    cases inBlock
  · obtain ⟨run, isRun, same⟩ := mem_namedRuns inRuns
    exact Run.split_subset f.body run isRun i (same ▸ inBlock)

/-- The blocks with the signature of a function, indexed in their order. -/
def ofBlocks (f : Function) (blocks : List Block) : FlowGraph :=
  reindex { empty f with blocks }

@[simp] theorem blocks_ofBlocks (f : Function) (blocks : List Block) :
    (ofBlocks f blocks).blocks = blocks := rfl

theorem names_closed (f : Function) (blocks : List Block) :
    (ofBlocks f (closeBlocks blocks)).names = blocks.map Block.name :=
  map_name_closeBlocks blocks

/-- The outcome of a construction that is not refused. -/
def constructed (f : Function) : Construction where
  graph := ofBlocks f (closeBlocks (openedRuns f))
  entryAdded := entryMentioned (namedRuns f)
  terminatorsAdded := (openedRuns f).countP fun b => b.terminator?.isNone

theorem foldlM_add_empty (f : Function) (blocks : List Block) :
    blocks.foldlM add (empty f) =
      match firstRepeat? (blocks.map Block.name) with
      | some name => .error (.repeatedLabel name)
      | none => .ok (ofBlocks f blocks) :=
  (indexed_empty f).foldlM_add blocks

theorem withEntry_namedRuns (f : Function) :
    (ofBlocks f (namedRuns f)).withEntry (bodyLabels f.body) = ofBlocks f (openedRuns f) := by
  rw [withEntry, openedRuns, apply_ite (ofBlocks f)]
  rfl

section Distinct

variable {f : Function} (distinct : ((namedRuns f).map Block.name).Nodup)

include distinct

theorem indexed_close : (ofBlocks f (openedRuns f)).close.Indexed := by
  have laid : (ofBlocks f (namedRuns f)).Indexed := indexed_reindex distinct
  rw [← withEntry_namedRuns]
  exact (laid.withEntry (bodyLabels f.body)).close

/-- The index that the steps of a construction leave is the one that is counted anew. -/
theorem close_openedRuns :
    (ofBlocks f (openedRuns f)).close = ofBlocks f (closeBlocks (openedRuns f)) :=
  (indexed_close distinct).reindex_eq.symm

/-- With different names only the check of the labels is left. -/
theorem build_of_distinct (checkLabels : Bool) :
    build f checkLabels =
      if checkLabels then
        match (constructed f).graph.dangling? with
        | some (block, target) => .error (.unknownLabel block target)
        | none => .ok (constructed f)
      else
        .ok (constructed f) := by
  rw [build, ← namedRuns.eq_1, foldlM_add_empty, firstRepeat?_eq_none.mpr distinct]
  change (if checkLabels then _ else _) = _
  simp only [withEntry_namedRuns, close_openedRuns distinct]
  rfl

end Distinct

theorem build_of_repeated {f : Function} {checkLabels : Bool} {name : String}
    (repeated : firstRepeat? ((namedRuns f).map Block.name) = some name) :
    build f checkLabels = .error (.repeatedLabel name) := by
  rw [build, ← namedRuns.eq_1, foldlM_add_empty, repeated]
  rfl

/-- What a successful construction has checked and made. -/
theorem build_eq_ok {f : Function} {checkLabels : Bool} {construction : Construction} :
    build f checkLabels = .ok construction ↔
      ((namedRuns f).map Block.name).Nodup ∧ construction = constructed f ∧
      (checkLabels = true → construction.graph.dangling? = none) := by
  rw [← firstRepeat?_eq_none]
  cases repeated : firstRepeat? ((namedRuns f).map Block.name) with
  | some name => simp [build_of_repeated repeated]
  | none =>
    rw [build_of_distinct (firstRepeat?_eq_none.mp repeated)]
    cases checkLabels with
    | false => simp [eq_comm]
    | true =>
      simp only [↓reduceIte, true_and, forall_const]
      split
      next found =>
        refine iff_of_false (by simp) ?_
        rintro ⟨rfl, resolved⟩
        simp [resolved] at found
      next resolved =>
        constructor
        · intro built
          cases built
          exact ⟨rfl, resolved⟩
        · rintro ⟨rfl, _⟩
          rfl

theorem exists_construction {f : Function} {checkLabels : Bool} {g : FlowGraph}
    (built : ofFunction f checkLabels = .ok g) :
    ∃ construction, build f checkLabels = .ok construction ∧ construction.graph = g := by
  rw [ofFunction] at built
  cases outcome : build f checkLabels with
  | error fault =>
    rw [outcome] at built
    cases built
  | ok construction =>
    rw [outcome] at built
    exact ⟨construction, rfl, Except.ok.inj built⟩

theorem ofFunction_eq_ok {f : Function} {checkLabels : Bool} {g : FlowGraph}
    (built : ofFunction f checkLabels = .ok g) :
    ((namedRuns f).map Block.name).Nodup ∧
      g = ofBlocks f (closeBlocks (openedRuns f)) := by
  obtain ⟨construction, outcome, rfl⟩ := exists_construction built
  obtain ⟨distinct, rfl, _⟩ := build_eq_ok.mp outcome
  exact ⟨distinct, rfl⟩

theorem params_ofFunction {f : Function} {checkLabels : Bool} {g : FlowGraph}
    (built : ofFunction f checkLabels = .ok g) : g.params = f.params := by
  obtain ⟨_, rfl⟩ := ofFunction_eq_ok built
  rfl

theorem resolved_of_checked {f : Function} {checkLabels : Bool} {g : FlowGraph}
    (built : ofFunction f checkLabels = .ok g) (checked : checkLabels = true) :
    g.dangling? = none := by
  obtain ⟨construction, outcome, rfl⟩ := exists_construction built
  exact (build_eq_ok.mp outcome).2.2 checked

theorem openedRuns_distinct {f : Function} (distinct : ((namedRuns f).map Block.name).Nodup) :
    ((openedRuns f).map Block.name).Nodup := by
  rw [← map_name_closeBlocks]
  exact (indexed_close distinct).distinct

theorem openedRuns_unmentioned {f : Function} {first : String}
    (isFirst : ((openedRuns f).map Block.name).head? = some first) :
    ∀ b ∈ openedRuns f, ∀ i ∈ b.instrs, first ∉ i.labels := by
  intro b found i inBlock mentioned
  have inRuns : b ∈ namedRuns f := by
    rcases mem_openedRuns found with empty | inRuns
    · simp [empty] at inBlock
    · exact inRuns
  rw [openedRuns] at isFirst
  split at isFirst
  next =>
    simp only [List.map_cons, List.head?_cons, Option.some.injEq] at isFirst
    subst isFirst
    apply freshName_not_mem "entry"
      (bodyLabels f.body ∪ .ofList ((namedRuns f).map Block.name))
    apply Std.ExtTreeSet.mem_union_iff.mpr
    exact .inl (mem_bodyLabels (mem_body_of_opened found inBlock) mentioned)
  next unmentioned =>
    apply unmentioned
    cases blocks : namedRuns f with
    | nil => simp [blocks] at inRuns
    | cons head rest =>
      simp only [blocks, List.map_cons, List.head?_cons, Option.some.injEq] at isFirst
      rw [blocks] at inRuns
      rw [entryMentioned, List.any_eq_true]
      refine ⟨b, inRuns, List.any_eq_true.mpr ⟨i, inBlock, ?_⟩⟩
      rw [isFirst]
      exact decide_eq_true mentioned

/-- Every graph that is built from a function is well-formed. -/
theorem wellFormed_ofFunction {f : Function} {checkLabels : Bool} {g : FlowGraph}
    (built : ofFunction f checkLabels = .ok g) : g.WellFormed := by
  obtain ⟨distinct, rfl⟩ := ofFunction_eq_ok built
  apply wellFormed_closeBlocks rfl (close_openedRuns distinct ▸ indexed_close distinct)
  · intro b found
    rcases mem_openedRuns found with empty | inRuns
    · simp [Terminal, empty]
    · obtain ⟨run, isRun, same⟩ := mem_namedRuns inRuns
      exact same ▸ Run.split_terminal f.body run isRun
  · exact fun first isFirst => openedRuns_unmentioned isFirst

/-- An instruction of the graph stands in the body, or leaves a block that the body leaves
open and has neither arguments nor a destination. -/
theorem mem_ofFunction {f : Function} {checkLabels : Bool} {g : FlowGraph}
    (built : ofFunction f checkLabels = .ok g) {b : Block} (found : b ∈ g.blocks) {i : Instr}
    (inBlock : i ∈ b.instrs) : i ∈ f.instrs ∨ (i = .ret [] ∨ ∃ target, i = .jmp target) := by
  obtain ⟨_, rfl⟩ := ofFunction_eq_ok built
  have fromBody : ∀ source ∈ openedRuns f, ∀ j ∈ source.instrs, j ∈ f.instrs := by
    intro source inside j inSource
    exact List.mem_filterMap.mpr ⟨.instr j, mem_body_of_opened inside inSource, rfl⟩
  obtain ⟨source, inside, last, rfl, added⟩ := mem_closeBlocks found
  rcases endWith_instrs source last with ⟨_, same⟩ | ⟨_, extended⟩
  · exact .inl (fromBody source inside i (same ▸ inBlock))
  · rw [extended, List.mem_append, List.mem_singleton] at inBlock
    rcases inBlock with earlier | rfl
    · exact .inl (fromBody source inside i earlier)
    · rcases added with returns | ⟨next, _, jumps⟩
      · exact .inr (.inl returns)
      · exact .inr (.inr ⟨next.name, jumps⟩)

end FlowGraph

end SsaForm
