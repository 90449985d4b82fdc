import SsaForm.Code.Instr

/-!
# Blocks and edges

A block is a named run of instructions. Where control leaves it is read off its last
instruction.
-/

namespace SsaForm

inductive EdgeKind where
  | always
  | onTrue
  | onFalse
deriving DecidableEq

namespace EdgeKind

def isConditional : EdgeKind → Bool
  | .always => false
  | .onTrue | .onFalse => true

/-- The outcome of the condition that takes the edge, if there is a condition. -/
def label : EdgeKind → String
  | .always => ""
  | .onTrue => "true"
  | .onFalse => "false"

end EdgeKind

structure Edge where
  target : String
  kind : EdgeKind
deriving DecidableEq

/-- The edges behind an instruction. A jump has one for each label, a branch one for each of
its first two labels. -/
def Instr.edges (i : Instr) : List Edge :=
  match i.terminator? with
  | some .jmp => i.labels.map fun target => ⟨target, .always⟩
  | some .br => i.labels.zipWith Edge.mk [.onTrue, .onFalse]
  | some .ret | none => []

structure Block where
  name : String
  instrs : List Instr
deriving DecidableEq

namespace Block

def last? (b : Block) : Option Instr :=
  b.instrs.getLast?

def terminator? (b : Block) : Option Terminator :=
  b.last?.bind Instr.terminator?

/-- The labels at which control may go on, in order and with repetitions. -/
def targets (b : Block) : List String :=
  (b.last?.map Instr.targets).getD []

def edges (b : Block) : List Edge :=
  (b.last?.map Instr.edges).getD []

/-- The variables that the block assigns, in order and with repetitions. -/
def assigned (b : Block) : List String :=
  b.instrs.filterMap Instr.dest

/-- The merging instructions at the head of the block. -/
def phis (b : Block) : List Instr :=
  b.instrs.takeWhile Instr.isPhi

def text (b : Block) : String :=
  "." ++ b.name ++ ":\n" ++ String.join (b.instrs.map fun i => "  " ++ i.text ++ "\n")

def agrees (a b : Block) : Bool :=
  decide (a.name = b.name) && a.instrs.isEqv b.instrs Instr.agrees

end Block

end SsaForm
