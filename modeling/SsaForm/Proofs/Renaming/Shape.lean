import SsaForm.Proofs.FlowGraph.WellFormed
import SsaForm.Proofs.Renaming.Recursion

/-!
# What renaming keeps

Renaming writes variables only. What it keeps of an instruction is its shape, and from the
shape alone one can tell how a block ends and where control goes. A walk leaves blocks of the
same shapes wherever it ends, behind the last block or at a fault.
-/

namespace SsaForm

/-- The instruction without the variables that it mentions. -/
def Instr.shape (i : Instr) : Instr :=
  { i with dest := none, args := [] }

/-- The block without the variables that its instructions mention. -/
def Block.shape (b : Block) : Block :=
  { b with instrs := b.instrs.map Instr.shape }

@[simp] theorem Instr.targets_shape (i : Instr) : i.shape.targets = i.targets := rfl

@[simp] theorem Block.name_shape (b : Block) : b.shape.name = b.name := rfl

@[simp] theorem Block.targets_shape (b : Block) : b.shape.targets = b.targets := by
  unfold Block.targets Block.last? Block.shape
  simp [List.getLast?_map, Function.comp_def]

@[simp] theorem Block.ended_shape {b : Block} : b.shape.Ended ↔ b.Ended := by
  constructor
  · rintro ⟨body, last, whole, ends, inner⟩
    obtain ⟨front, back, split, rfl, atEnd⟩ := List.map_eq_append_iff.mp whole
    obtain ⟨final, rfl, rfl⟩ := List.map_eq_singleton_iff.mp atEnd
    refine ⟨front, final, split, ends, ?_⟩
    intro i member
    exact inner i.shape (List.mem_map_of_mem member)
  · rintro ⟨body, last, whole, ends, inner⟩
    refine ⟨body.map Instr.shape, last.shape, by simp [Block.shape, whole], ends, ?_⟩
    intro i member
    obtain ⟨original, listed, rfl⟩ := List.mem_map.mp member
    exact inner original listed

theorem Versions.map_shape_renameInstrs (s : Versions) (instrs : List Instr) :
    (s.renameInstrs instrs).1.map Instr.shape = instrs.map Instr.shape := by
  induction instrs generalizing s with
  | nil => rfl
  | cons i rest inductionHypothesis =>
    simp only [renameInstrs_cons, List.map_cons, inductionHypothesis, renameInstr_eq]
    rfl

namespace Renaming

theorem Site.shape_renamed (site : Site) : site.renamed.shape = site.block.shape := by
  simp only [renamed, instrs, Block.shape, Versions.map_shape_renameInstrs]

/-- The blocks that a walk leaves, whether or not it gets to its end. -/
def blocksLeft : Except Stop State → List Block
  | .ok state => state.blocks
  | .error stop => stop.blocks

theorem map_shape_visit (plan : Plan) (name : String) (state : State) :
    (blocksLeft ((visit plan name state).map Prod.fst)).map Block.shape =
      state.blocks.map Block.shape := by
  cases parts : splitLast? name state.blocks with
  | none =>
    rw [visit, parts]
    rfl
  | some triple =>
    obtain ⟨before, block, behind⟩ := triple
    -- The visited block is replaced before its versions are handed on, so a fault keeps it.
    have replaced : ∀ site : Site, site.block = block →
        (before ++ site.renamed :: behind).map Block.shape = state.blocks.map Block.shape := by
      rintro site rfl
      simp [(splitLast?_eq_some parts).1, site.shape_renamed]
    rw [visit_of_split parts]
    dsimp only
    split
    next => exact replaced _ rfl
    next => exact replaced _ rfl

theorem map_shape_walk (plan : Plan) (state : State) (pending : List Pending) :
    (blocksLeft (walk plan state pending)).map Block.shape = state.blocks.map Block.shape := by
  fun_induction walk plan state pending with
  | case1 => rfl
  | case2 state made rest inductionHypothesis => exact inductionHypothesis
  | case3 state name children rest stop stopped =>
    have kept := map_shape_visit plan name state
    rw [stopped] at kept
    exact kept
  | case4 state name children rest inside made visited inductionHypothesis =>
    have kept := map_shape_visit plan name state
    rw [visited] at kept
    exact inductionHypothesis.trans kept

end Renaming

/-- Renaming keeps the shapes of all blocks, whatever the tree and the merges are. -/
theorem map_shape_rename (config : Config) (phis successors tree : Relation String)
    (root : String) (params : List String) (blocks : List Block) :
    (rename config phis successors tree root params blocks).blocks.map Block.shape =
      blocks.map Block.shape := by
  have kept := Renaming.map_shape_walk ⟨config, phis, successors⟩
    ⟨blocks, .ofParams params, {}, []⟩ [.enter (.unfold tree root)]
  unfold rename
  dsimp only
  split
  next found =>
    rw [found] at kept
    exact kept
  next found =>
    rw [found] at kept
    exact kept

end SsaForm
