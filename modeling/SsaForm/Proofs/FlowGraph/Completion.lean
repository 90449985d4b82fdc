import SsaForm.Proofs.FlowGraph.Layout
import SsaForm.Proofs.FlowGraph.Reassembly

/-!
# What construction adds to a body

The body of a graph is the body of the function with lines put between its lines: a label in
front of every run that has none, a jump or a return behind every run that control falls out
of, and, if the first block is mentioned, a new entry that jumps to it. No line of the function
is lost, repeated or moved, and the labels that are put in are new.
-/

namespace SsaForm

/-- A line of a completed body. -/
inductive Line where
  | kept (item : Item)
  | added (item : Item)
deriving DecidableEq

namespace Line

/-- What stands on the line. -/
def item : Line → Item
  | .kept item | .added item => item

/-- What stands on the line, if it comes from the function. -/
def kept? : Line → Option Item
  | .kept item => some item
  | .added _ => none

/-- The label on a line that was put in. -/
def addedLabel? : Line → Option String
  | .kept _ => none
  | .added item => item.label?

end Line

namespace FlowGraph

/-- The lines of a body with what is put between them, where `inRun` tells whether the run in
front of them goes on. A run starts at a label and, outside of a run, at an instruction, and
then a label is put in front of it. It ends behind a terminator, and also in front of a label
or at the end of the body, and then a jump to the label or a return is put behind it. -/
inductive Completed : Bool → List Item → List Line → Prop
  | finished : Completed false [] []
  | returned : Completed true [] [.added (.instr (.ret []))]
  | labelled {rest : List Item} {lines : List Line} (name : String)
      (remaining : Completed true rest lines) :
      Completed false (.label name :: rest) (.kept (.label name) :: lines)
  | jumped {rest : List Item} {lines : List Line} (name : String)
      (remaining : Completed true rest lines) :
      Completed true (.label name :: rest)
        (.added (.instr (.jmp name)) :: .kept (.label name) :: lines)
  | named {i : Instr} {rest : List Item} {lines : List Line} (number : Nat)
      (remaining : Completed true (.instr i :: rest) lines) :
      Completed false (.instr i :: rest) (.added (.label ("bb" ++ toString number)) :: lines)
  | continued {i : Instr} {rest : List Item} {lines : List Line}
      (continues : i.isTerminator = false) (remaining : Completed true rest lines) :
      Completed true (.instr i :: rest) (.kept (.instr i) :: lines)
  | terminated {i : Instr} {rest : List Item} {lines : List Line}
      (ends : i.isTerminator = true) (remaining : Completed false rest lines) :
      Completed true (.instr i :: rest) (.kept (.instr i) :: lines)

/-- What is put in front of completed lines: nothing, or an entry that jumps to the first block
if some instruction of the function mentions it. -/
inductive Opening (f : Function) (lines : List Line) : List Line → Prop
  | unmentioned (apart : ∀ first, lines.head?.map Line.item = some (.label first) →
      ∀ i ∈ f.instrs, first ∉ i.labels) : Opening f lines []
  | mentioned {first : String} {i : Instr} (number : Nat)
      (isFirst : lines.head?.map Line.item = some (.label first)) (listed : i ∈ f.instrs)
      (named : first ∈ i.labels) :
      Opening f lines
        [.added (.label ("entry" ++ toString number)), .added (.instr (.jmp first))]

/-- Without the lines that were put in, the completed body is the body. -/
theorem Completed.filterMap_kept? {inRun : Bool} {body : List Item} {lines : List Line}
    (completed : Completed inRun body lines) : lines.filterMap Line.kept? = body := by
  induction completed with
  | finished => rfl
  | returned => rfl
  | labelled name _ inductionHypothesis => exact congrArg (List.cons _) inductionHypothesis
  | jumped name _ inductionHypothesis => exact congrArg (List.cons _) inductionHypothesis
  | named number _ inductionHypothesis => exact inductionHypothesis
  | continued _ _ inductionHypothesis => exact congrArg (List.cons _) inductionHypothesis
  | terminated _ _ inductionHypothesis => exact congrArg (List.cons _) inductionHypothesis

/-- The labels that were put in are different and not in use. -/
structure Fresh (used : KeySet String) (lines : List Line) : Prop where
  distinct : (lines.filterMap Line.addedLabel?).Nodup
  unused : ∀ name ∈ lines.filterMap Line.addedLabel?, name ∉ used

namespace Fresh

variable {used : KeySet String} {lines : List Line}

theorem nil : Fresh used [] :=
  ⟨List.nodup_nil, fun _ listed => absurd listed List.not_mem_nil⟩

theorem cons (fresh : Fresh used lines) {line : Line} (unlabelled : line.addedLabel? = none) :
    Fresh used (line :: lines) := by
  refine ⟨?_, ?_⟩
  · rw [List.filterMap_cons_none unlabelled]
    exact fresh.distinct
  · rw [List.filterMap_cons_none unlabelled]
    exact fresh.unused

theorem cons_label {name : String} (distinct : name ∉ lines.filterMap Line.addedLabel?)
    (unused : name ∉ used) (fresh : Fresh used lines) :
    Fresh used (.added (.label name) :: lines) :=
  ⟨List.nodup_cons.mpr ⟨distinct, fresh.distinct⟩,
    List.forall_mem_cons.mpr ⟨unused, fresh.unused⟩⟩

/-- A name is new if the labels behind it are chosen past it. -/
theorem cons_insert {name : String} (unused : name ∉ used) (fresh : Fresh (used.insert name) lines) :
    Fresh used (.added (.label name) :: lines) := by
  refine cons_label ?_ unused ⟨fresh.distinct, ?_⟩
  · exact fun listed => fresh.unused name listed Std.ExtTreeSet.mem_insert_self
  · exact fun other listed inUse =>
      fresh.unused other listed (Std.ExtTreeSet.mem_insert.mpr (.inr inUse))

end Fresh

theorem mem_names_of_laidOut {blocks : List Block} {name : String}
    (listed : .label name ∈ laidOut blocks) : name ∈ blocks.map Block.name := by
  obtain ⟨b, inside, listed⟩ := List.mem_flatMap.mp listed
  rcases List.mem_cons.mp listed with same | inBlock
  · cases same
    exact List.mem_map_of_mem inside
  · obtain ⟨i, _, isInstr⟩ := List.mem_map.mp inBlock
    cases isInstr

/-- Instructions, with a last one unless they end with a terminator. -/
def closedWith (instrs : List Instr) (last : Instr) : List Instr :=
  if (instrs.getLast?.bind Instr.terminator?).isSome then instrs else instrs ++ [last]

theorem closedWith_cons {i : Instr} (continues : i.isTerminator = false) (instrs : List Instr)
    (last : Instr) : closedWith (i :: instrs) last = i :: closedWith instrs last := by
  rw [Instr.isTerminator] at continues
  cases instrs with
  | nil => simp [closedWith, continues]
  | cons next rest =>
    rw [closedWith, closedWith, List.getLast?_cons_cons]
    split <;> rfl

theorem closedWith_terminator {i : Instr} (ends : i.isTerminator = true) (last : Instr) :
    closedWith [i] last = [i] :=
  if_pos ends

theorem endWith_mk (name : String) (instrs : List Instr) (last : Instr) :
    endWith ⟨name, instrs⟩ last = ⟨name, closedWith instrs last⟩ := by
  rw [endWith, closedWith, Block.terminator?, Block.last?]
  split <;> rfl

theorem laidOut_closeBlocks_cons (name : String) (instrs : List Instr) (rest : List Block) :
    laidOut (closeBlocks (⟨name, instrs⟩ :: rest)) =
      .label name :: ((closedWith instrs (leaving rest)).map .instr ++ laidOut (closeBlocks rest)) := by
  have closed : closeBlocks (⟨name, instrs⟩ :: rest) =
      ⟨name, closedWith instrs (leaving rest)⟩ :: closeBlocks rest := by
    rw [← endWith_mk]
    cases rest <;> rfl
  rw [closed, laidOut, List.flatMap_cons]
  rfl

/-- The lines that construction makes of runs. -/
def written (used : KeySet String) (runs : List Run) : List Item :=
  laidOut (closeBlocks (nameRuns used runs))

/-- The lines that construction makes of runs behind a label, or behind an instruction that
control does not leave at: the first run goes on, if it has no label itself. -/
def resumed (used : KeySet String) (runs : List Run) : List Item :=
  (closedWith (Run.takeOpen runs).1 (leaving (nameRuns used (Run.takeOpen runs).2))).map .instr ++
    written used (Run.takeOpen runs).2

section Lines

variable (used : KeySet String) (rest : List Item)

theorem written_label (name : String) :
    written used (Run.split (.label name :: rest)) =
      .label name :: resumed used (Run.split rest) :=
  laidOut_closeBlocks_cons name _ _

theorem resumed_label (name : String) :
    resumed used (Run.split (.label name :: rest)) =
      .instr (.jmp name) :: .label name :: resumed used (Run.split rest) := by
  rw [← written_label]
  rfl

theorem written_open (instrs : List Instr) (runs : List Run) :
    written used (⟨none, instrs⟩ :: runs) =
      .label (freshName "bb" used) ::
        resumed (used.insert (freshName "bb" used)) (⟨none, instrs⟩ :: runs) :=
  laidOut_closeBlocks_cons _ instrs _

theorem written_instr (i : Instr) :
    written used (Run.split (.instr i :: rest)) =
      .label (freshName "bb" used) ::
        resumed (used.insert (freshName "bb" used)) (Run.split (.instr i :: rest)) := by
  rw [Run.split_instr]
  split
  next => exact written_open used _ _
  next => exact written_open used _ _

theorem resumed_terminator {i : Instr} (ends : i.isTerminator = true) :
    resumed used (Run.split (.instr i :: rest)) = .instr i :: written used (Run.split rest) := by
  rw [Run.split_instr, if_pos ends, resumed, Run.takeOpen, closedWith_terminator ends]
  rfl

theorem resumed_instr {i : Instr} (continues : i.isTerminator = false) :
    resumed used (Run.split (.instr i :: rest)) = .instr i :: resumed used (Run.split rest) := by
  rw [Run.split_instr, if_neg (by simp [continues]), resumed, Run.takeOpen,
    closedWith_cons continues]
  rfl

end Lines

/-- The items are the lines of a body, completed with new labels. -/
def Completes (used : KeySet String) (inRun : Bool) (body items : List Item) : Prop :=
  ∃ lines, Completed inRun body lines ∧ lines.map Line.item = items ∧ Fresh used lines

/-- Construction completes a body, from its start and from inside of a run. -/
theorem completes_split (body : List Item) (used : KeySet String) :
    Completes used false body (written used (Run.split body)) ∧
      Completes used true body (resumed used (Run.split body)) := by
  induction body generalizing used with
  | nil => exact ⟨⟨[], .finished, rfl, .nil⟩, ⟨_, .returned, rfl, Fresh.nil.cons rfl⟩⟩
  | cons item rest inductionHypothesis =>
    cases item with
    | label name =>
      obtain ⟨_, lines, completed, items, fresh⟩ := inductionHypothesis used
      rw [resumed_label, written_label, ← items]
      exact ⟨⟨_, .labelled name completed, rfl, fresh.cons rfl⟩,
        ⟨_, .jumped name completed, rfl, (fresh.cons rfl).cons rfl⟩⟩
    | instr i =>
      -- A name that is given to the run is not free any more for what follows.
      have goesOn (used : KeySet String) :
          Completes used true (.instr i :: rest) (resumed used (Run.split (.instr i :: rest))) := by
        obtain ⟨⟨lines, completed, items, fresh⟩, others, continued, same, apart⟩ :=
          inductionHypothesis used
        cases ends : i.isTerminator with
        | true =>
          rw [resumed_terminator used rest ends, ← items]
          exact ⟨_, .terminated ends completed, rfl, fresh.cons rfl⟩
        | false =>
          rw [resumed_instr used rest ends, ← same]
          exact ⟨_, .continued ends continued, rfl, apart.cons rfl⟩
      refine ⟨?_, goesOn used⟩
      obtain ⟨lines, completed, items, fresh⟩ := goesOn (used.insert (freshName "bb" used))
      obtain ⟨number, numbered⟩ := exists_freshName "bb" used
      refine ⟨_, .named number completed, ?_, ?_⟩
      · rw [written_instr, ← items, numbered]
        rfl
      · rw [← numbered]
        exact fresh.cons_insert (freshName_not_mem "bb" used)

theorem apart_of_not_mem_bodyLabels {f : Function} {name : String}
    (unused : name ∉ bodyLabels f.body) : name ∉ f.labels ∧ ∀ i ∈ f.instrs, name ∉ i.labels := by
  constructor
  · exact fun labelled => unused (label_mem_bodyLabels (Function.mem_labels.mp labelled))
  · intro i listed mentioned
    exact unused (mem_bodyLabels (Item.mem_filterMap_instr?.mp listed) mentioned)

theorem label_mem_of_addedLabel {lines : List Line} {name : String}
    (listed : name ∈ lines.filterMap Line.addedLabel?) : .label name ∈ lines.map Line.item := by
  obtain ⟨line, inside, labelled⟩ := List.mem_filterMap.mp listed
  refine List.mem_map.mpr ⟨line, inside, ?_⟩
  rcases line with item | (label | i)
  · cases labelled
  · cases labelled
    rfl
  · cases labelled

theorem leaving_of_head {blocks : List Block} {first : String}
    (isFirst : (blocks.map Block.name).head? = some first) : leaving blocks = .jmp first := by
  cases blocks with
  | nil => cases isFirst
  | cons b rest =>
    cases isFirst
    rfl

theorem head?_laidOut (blocks : List Block) :
    (laidOut blocks).head? = (blocks.map Block.name).head?.map Item.label := by
  cases blocks <;> rfl

/-- The completed lines of a body with what construction puts in front of them. -/
theorem exists_opening {f : Function} {lines : List Line}
    (items : lines.map Line.item = laidOut (closeBlocks (namedRuns f)))
    (fresh : Fresh (bodyLabels f.body) lines) :
    ∃ lead, Opening f lines lead ∧
      laidOut (closeBlocks (openedRuns f)) = (lead ++ lines).map Line.item ∧
      Fresh (bodyLabels f.body) (lead ++ lines) := by
  have head : lines.head?.map Line.item = ((namedRuns f).map Block.name).head?.map Item.label := by
    rw [← List.head?_map, items, head?_laidOut, map_name_closeBlocks]
  have listed (i : Instr) : i ∈ f.instrs ↔ ∃ b ∈ namedRuns f, i ∈ b.instrs := by
    rw [← flatMap_instrs_namedRuns, List.mem_flatMap]
  rw [openedRuns]
  split
  next mentioned =>
    obtain ⟨first, isFirst, b, inside, i, inBlock, named⟩ := entryMentioned_iff.mp mentioned
    have unused := freshName_not_mem "entry"
      (bodyLabels f.body ∪ .ofList ((namedRuns f).map Block.name))
    obtain ⟨number, numbered⟩ := exists_freshName "entry"
      (bodyLabels f.body ∪ .ofList ((namedRuns f).map Block.name))
    rw [numbered] at unused ⊢
    rw [Std.ExtTreeSet.mem_union_iff, KeySet.mem_ofList, not_or] at unused
    have opening : Opening f lines _ :=
      .mentioned number (by rw [head, isFirst]; rfl) ((listed i).mpr ⟨b, inside, inBlock⟩) named
    refine ⟨_, opening, ?_, ?_⟩
    · rw [laidOut_closeBlocks_cons, leaving_of_head isFirst, ← items]
      rfl
    · refine Fresh.cons_label ?_ unused.1 (fresh.cons rfl)
      intro repeated
      have onLine : .label _ ∈ lines.map Line.item := label_mem_of_addedLabel repeated
      rw [items] at onLine
      apply unused.2
      rw [← map_name_closeBlocks]
      exact mem_names_of_laidOut onLine
  next unmentioned =>
    refine ⟨[], .unmentioned ?_, items.symm, fresh⟩
    intro first isFirst i inBody named
    rw [head] at isFirst
    obtain ⟨name, isHead, same⟩ := Option.map_eq_some_iff.mp isFirst
    cases same
    obtain ⟨b, inside, inBlock⟩ := (listed i).mp inBody
    exact unmentioned (entryMentioned_iff.mpr ⟨first, isHead, b, inside, i, inBlock, named⟩)

/-- Construction only puts lines into a body. The body of the graph is the body of the function,
completed, behind an entry where the first block is mentioned; the labels that were put in are
different from each other and from all that the function bears or mentions. -/
theorem construction_completes_body (f : Function) (checkLabels : Bool) (g : FlowGraph)
    (built : ofFunction f checkLabels = .ok g) :
    ∃ lead lines, g.body = (lead ++ lines).map Line.item ∧
      lines.filterMap Line.kept? = f.body ∧ Completed false f.body lines ∧
      Opening f lines lead ∧ ((lead ++ lines).filterMap Line.addedLabel?).Nodup ∧
      ∀ name ∈ (lead ++ lines).filterMap Line.addedLabel?,
        name ∉ f.labels ∧ ∀ i ∈ f.instrs, name ∉ i.labels := by
  obtain ⟨_, rfl⟩ := ofFunction_eq_ok built
  obtain ⟨lines, completed, items, fresh⟩ := (completes_split f.body (bodyLabels f.body)).1
  obtain ⟨lead, opening, whole, apart⟩ := exists_opening items fresh
  exact ⟨lead, lines, whole, completed.filterMap_kept?, completed, opening, apart.distinct,
    fun name listed => apart_of_not_mem_bodyLabels (apart.unused name listed)⟩

/-- A first block that is mentioned, labels behind each other and at the end, terminators behind
each other and code behind them, and labels that read like generated names: one is borne, two
are mentioned and nowhere borne. -/
def patchwork : Function where
  name := "main"
  params := [⟨"c", .primitive "bool"⟩]
  body := [
    .label "top",
    .label "bb1",
    .instr (.effect "print" []),
    .instr (.br "c" "bb3" "entry1"),
    .instr (.jmp "top"),
    .instr (.effect "print" ["c"]),
    .label "out",
    .instr (.ret []),
    .instr (.effect "nop" []),
    .label "end"]

/-- The same lines as they stand in the graph. -/
def patchworkBody : List Item := [
  .label "entry2", .instr (.jmp "top"),
  .label "top", .instr (.jmp "bb1"),
  .label "bb1", .instr (.effect "print" []), .instr (.br "c" "bb3" "entry1"),
  .label "bb2", .instr (.jmp "top"),
  .label "bb4", .instr (.effect "print" ["c"]), .instr (.jmp "out"),
  .label "out", .instr (.ret []),
  .label "bb5", .instr (.effect "nop" []), .instr (.jmp "end"),
  .label "end", .instr (.ret [])]

theorem construction_completes_body_patchwork :
    ∃ g lead lines, ofFunction patchwork false = .ok g ∧ g.body = patchworkBody ∧
      g.body = (lead ++ lines).map Line.item ∧
      lines.filterMap Line.kept? = patchwork.body ∧ Completed false patchwork.body lines ∧
      Opening patchwork lines lead ∧ ((lead ++ lines).filterMap Line.addedLabel?).Nodup ∧
      ∀ name ∈ (lead ++ lines).filterMap Line.addedLabel?,
        name ∉ patchwork.labels ∧ ∀ i ∈ patchwork.instrs, name ∉ i.labels := by
  have facts : (ofFunction patchwork false).toOption.any (fun g => g.body = patchworkBody) = true := by
    decide +kernel
  obtain ⟨g, built, facts⟩ := exists_ok_of_any facts
  obtain ⟨lead, lines, whole, completion⟩ := construction_completes_body patchwork false g built
  exact ⟨g, lead, lines, built, of_decide_eq_true facts, whole, completion⟩

end FlowGraph

end SsaForm
