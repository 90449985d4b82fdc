import SsaForm.Proofs.FlowGraph.Dominance

/-!
# How a body is laid out in blocks

Every label starts a block with its name, and the other blocks get names that nothing
mentions. The blocks hold the instructions of the body in order; where control would fall out
of a block, a jump to the next one or a return is added.
-/

namespace SsaForm

/-- The label that a line bears. -/
def Item.label? : Item → Option String
  | .label name => some name
  | .instr _ => none

theorem Item.mem_filterMap_label? {body : List Item} {name : String} :
    name ∈ body.filterMap label? ↔ .label name ∈ body := by
  rw [List.mem_filterMap]
  constructor
  · rintro ⟨_ | _, inBody, same⟩
    · cases same
      exact inBody
    · cases same
  · exact fun inBody => ⟨_, inBody, rfl⟩

/-- The labels that a body bears, in order. -/
def Function.labels (f : Function) : List String :=
  f.body.filterMap Item.label?

theorem Function.mem_labels {f : Function} {name : String} :
    name ∈ f.labels ↔ .label name ∈ f.body :=
  Item.mem_filterMap_label?

theorem Item.mem_filterMap_instr? {body : List Item} {i : Instr} :
    i ∈ body.filterMap instr? ↔ .instr i ∈ body := by
  rw [List.mem_filterMap]
  constructor
  · rintro ⟨_ | _, inBody, same⟩
    · cases same
    · cases same
      exact inBody
  · exact fun inBody => ⟨_, inBody, rfl⟩

namespace Run

theorem takeOpen_append_labelled (runs more : List Run) (label : String) (instrs : List Instr) :
    takeOpen (runs ++ ⟨some label, instrs⟩ :: more) =
      ((takeOpen runs).1, (takeOpen runs).2 ++ ⟨some label, instrs⟩ :: more) := by
  fun_cases takeOpen runs with
  | case1 => rfl
  | case2 _ closed =>
    cases runs with
    | nil => rfl
    | cons run rest =>
      obtain ⟨_ | name, own⟩ := run
      · exact absurd rfl (closed own rest)
      · rfl

theorem flatMap_instrs_takeOpen (runs : List Run) :
    (takeOpen runs).1 ++ (takeOpen runs).2.flatMap Run.instrs = runs.flatMap Run.instrs := by
  fun_cases takeOpen runs <;> rfl

/-- A label starts a run wherever it stands. -/
theorem split_append_label (before rest : List Item) (label : String) :
    ∃ runs, split (before ++ .label label :: rest) =
      runs ++ ⟨some label, (takeOpen (split rest)).1⟩ :: (takeOpen (split rest)).2 := by
  induction before with
  | nil => exact ⟨[], rfl⟩
  | cons item others inductionHypothesis =>
    obtain ⟨runs, parts⟩ := inductionHypothesis
    cases item with
    | label name =>
      rw [List.cons_append, split, parts, takeOpen_append_labelled]
      exact ⟨⟨some name, (takeOpen runs).1⟩ :: (takeOpen runs).2, rfl⟩
    | instr i =>
      rw [List.cons_append, split_instr, parts, takeOpen_append_labelled]
      split
      next => exact ⟨⟨none, [i]⟩ :: runs, rfl⟩
      next => exact ⟨⟨none, i :: (takeOpen runs).1⟩ :: (takeOpen runs).2, rfl⟩

theorem flatMap_instrs_split (body : List Item) :
    (split body).flatMap Run.instrs = body.filterMap Item.instr? := by
  induction body with
  | nil => rfl
  | cons item rest inductionHypothesis =>
    cases item with
    | label name =>
      rw [split, List.flatMap_cons, flatMap_instrs_takeOpen, inductionHypothesis]
      rfl
    | instr i =>
      rw [split_instr]
      split
      next => rw [List.flatMap_cons, inductionHypothesis]; rfl
      next =>
        rw [List.flatMap_cons, List.cons_append, flatMap_instrs_takeOpen, inductionHypothesis]
        rfl

theorem filterMap_label_takeOpen (runs : List Run) :
    (takeOpen runs).2.filterMap Run.label = runs.filterMap Run.label := by
  fun_cases takeOpen runs <;> rfl

/-- The labels of the body are those of its runs. -/
theorem filterMap_label_split (body : List Item) :
    (split body).filterMap Run.label = body.filterMap Item.label? := by
  induction body with
  | nil => rfl
  | cons item rest inductionHypothesis =>
    cases item with
    | label name =>
      have others := (filterMap_label_takeOpen (split rest)).trans inductionHypothesis
      simpa [split, Item.label?] using others
    | instr i =>
      rw [split_instr, List.filterMap_cons_none rfl, ← inductionHypothesis]
      split
      next => rfl
      next => exact filterMap_label_takeOpen (split rest)

end Run

namespace FlowGraph

/-- Naming goes on behind the first runs past the names that they have got. -/
theorem nameRuns_append (used : KeySet String) (first : List Run) :
    ∃ more, ∀ second, nameRuns used (first ++ second) = nameRuns used first ++ nameRuns more second := by
  fun_induction nameRuns used first with
  | case1 used => exact ⟨used, fun _ => rfl⟩
  | case2 used name instrs rest inductionHypothesis =>
    obtain ⟨more, parts⟩ := inductionHypothesis
    refine ⟨more, fun second => ?_⟩
    rw [List.cons_append, nameRuns, parts, List.cons_append]
  | case3 used instrs rest name inductionHypothesis =>
    obtain ⟨more, parts⟩ := inductionHypothesis
    refine ⟨more, fun second => ?_⟩
    rw [List.cons_append, nameRuns, parts, List.cons_append]

/-- Names in use are borne by the runs that they label, and by no others. -/
theorem mem_names_nameRuns {used : KeySet String} {runs : List Run} {name : String}
    (inUse : name ∈ used) :
    name ∈ (nameRuns used runs).map Block.name ↔ name ∈ runs.filterMap Run.label := by
  fun_induction nameRuns used runs with
  | case1 => rfl
  | case2 used label instrs rest inductionHypothesis =>
    simp [inductionHypothesis inUse]
  | case3 used instrs rest fresh inductionHypothesis =>
    have apart : name ≠ fresh := by
      rintro rfl
      exact freshName_not_mem "bb" used inUse
    rw [List.map_cons, List.mem_cons, or_iff_right apart, List.filterMap_cons_none rfl,
      inductionHypothesis (Std.ExtTreeSet.mem_insert.mpr (.inr inUse))]

/-- A name that the body mentions is never given to a block that the body does not label. -/
theorem mem_names_iff_mem_labels {f : Function} {checkLabels : Bool} {g : FlowGraph}
    (built : ofFunction f checkLabels = .ok g) {name : String}
    (mentioned : name ∈ bodyLabels f.body) : name ∈ g.names ↔ name ∈ f.labels := by
  obtain ⟨_, rfl⟩ := ofFunction_eq_ok built
  have named : name ∈ (namedRuns f).map Block.name ↔ name ∈ f.labels := by
    rw [namedRuns, mem_names_nameRuns mentioned, Run.filterMap_label_split, Function.labels]
  rw [names_closed, openedRuns]
  split
  next =>
    rw [List.map_cons, List.mem_cons, or_iff_right, named]
    rintro rfl
    exact freshName_not_mem "entry" _ (Std.ExtTreeSet.mem_union_iff.mpr (.inl mentioned))
  next => exact named

/-- How control leaves an open block with given blocks behind it. -/
def leaving : List Block → Instr
  | [] => .ret []
  | next :: _ => .jmp next.name

theorem mem_closeBlocks_append (before : List Block) (b : Block) (following : List Block) :
    endWith b (leaving following) ∈ closeBlocks (before ++ b :: following) := by
  induction before with
  | nil => cases following <;> exact List.mem_cons_self
  | cons first rest inductionHypothesis =>
    obtain ⟨next, others, whole⟩ : ∃ next others, rest ++ b :: following = next :: others := by
      cases rest with
      | nil => exact ⟨_, _, rfl⟩
      | cons second more => exact ⟨_, _, rfl⟩
    rw [List.cons_append, whole, closeBlocks, ← whole]
    exact List.mem_cons_of_mem _ inductionHypothesis

theorem endWith_of_open {b : Block} (isOpen : ∀ i ∈ b.instrs, i.isTerminator = false)
    (last : Instr) : (endWith b last).instrs = b.instrs ++ [last] := by
  have continues : b.terminator? = none := by
    rw [Block.terminator?, Block.last?]
    cases found : b.instrs.getLast? with
    | none => rfl
    | some final =>
      have plain := isOpen final (List.mem_of_getLast? found)
      simpa [Instr.isTerminator] using plain
  rw [endWith, continues]
  rfl

theorem endWith_getElem? {b : Block} {last : Instr} {position : Nat}
    (inside : position < b.instrs.length) :
    (endWith b last).instrs[position]? = b.instrs[position]? := by
  rcases endWith_instrs b last with ⟨_, same⟩ | ⟨_, extended⟩
  · rw [same]
  · rw [extended, List.getElem?_append_left inside]

theorem take_endWith (b : Block) (last : Instr) :
    (endWith b last).instrs.take b.instrs.length = b.instrs := by
  rcases endWith_instrs b last with ⟨_, same⟩ | ⟨_, extended⟩
  · rw [same, List.take_length]
  · rw [extended, List.take_left]

theorem drop_endWith (b : Block) (last : Instr) :
    (endWith b last).instrs.drop b.instrs.length = [] ∨
      (endWith b last).instrs.drop b.instrs.length = [last] := by
  rcases endWith_instrs b last with ⟨_, same⟩ | ⟨_, extended⟩
  · exact .inl (by rw [same, List.drop_length])
  · exact .inr (by rw [extended, List.drop_left])

/-- Without what was added the closed blocks hold the instructions of the open ones. -/
theorem flatMap_take_closeBlocks {count : String → Nat} {blocks : List Block}
    (counts : ∀ b ∈ blocks, count b.name = b.instrs.length) :
    ((closeBlocks blocks).flatMap fun b => b.instrs.take (count b.name)) =
      blocks.flatMap Block.instrs := by
  fun_induction closeBlocks blocks with
  | case1 => rfl
  | case2 b =>
    rw [List.flatMap_singleton, List.flatMap_singleton, endWith_name,
      counts b List.mem_cons_self, take_endWith]
  | case3 b next rest inductionHypothesis =>
    obtain ⟨first, others⟩ := List.forall_mem_cons.mp counts
    rw [List.flatMap_cons, List.flatMap_cons, endWith_name, first, take_endWith,
      inductionHypothesis others]

theorem flatMap_instrs_namedRuns (f : Function) :
    (namedRuns f).flatMap Block.instrs = f.instrs := by
  rw [List.flatMap_def, namedRuns, map_instrs_nameRuns, ← List.flatMap_def,
    Run.flatMap_instrs_split]
  rfl

theorem flatMap_instrs_openedRuns (f : Function) :
    (openedRuns f).flatMap Block.instrs = f.instrs := by
  rw [openedRuns]
  split
  next => exact flatMap_instrs_namedRuns f
  next => exact flatMap_instrs_namedRuns f

theorem exists_front (f : Function) : ∃ front, openedRuns f = front ++ namedRuns f := by
  rw [openedRuns]
  split
  next => exact ⟨[_], rfl⟩
  next => exact ⟨[], rfl⟩

/-- The number of instructions of a block that stand in the body. -/
def standing (f : Function) (name : String) : Nat :=
  ((openedRuns f).find? fun b => b.name = name).elim 0 fun b => b.instrs.length

theorem standing_eq {f : Function} (distinct : ((namedRuns f).map Block.name).Nodup) {b : Block}
    (inside : b ∈ openedRuns f) : standing f b.name = b.instrs.length := by
  rw [standing]
  cases found : (openedRuns f).find? fun other => other.name = b.name with
  | none => simpa using List.find?_eq_none.mp found b inside
  | some other =>
    have named : other.name = b.name := by simpa using List.find?_some found
    rw [List.inj_on_of_nodup_map (openedRuns_distinct distinct) (List.mem_of_find?_eq_some found)
      inside named]
    rfl

end FlowGraph

end SsaForm
