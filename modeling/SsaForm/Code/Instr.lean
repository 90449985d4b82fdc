import SsaForm.Code.Literal
import SsaForm.Code.Ty

/-!
# Instructions

All instructions have one shape; which parts are present depends on the operation. The
operations that end a block are told by their names alone.
-/

namespace SsaForm

/-- The operations that end a block: a conditional branch, a jump and a return. -/
inductive Terminator where
  | br
  | jmp
  | ret
deriving DecidableEq

namespace Terminator

def name : Terminator → String
  | .br => "br"
  | .jmp => "jmp"
  | .ret => "ret"

def ofName? (op : String) : Option Terminator :=
  if op = "br" then some .br
  else if op = "jmp" then some .jmp
  else if op = "ret" then some .ret
  else none

theorem ofName?_eq_some {op : String} {t : Terminator} : ofName? op = some t ↔ op = t.name := by
  cases t <;> grind [ofName?, name]

def isBranch : Terminator → Bool
  | .br | .jmp => true
  | .ret => false

end Terminator

/-- An instruction: an operation with its destination, arguments, labels, called functions
and constant. -/
structure Instr where
  op : String
  dest : Option String := none
  ty : Option Ty := none
  args : List String := []
  labels : List String := []
  funcs : List String := []
  value : Option Literal := none
deriving DecidableEq

namespace Instr

def effect (op : String) (args : List String) : Instr :=
  { op, args }

def assign (op dest : String) (ty : Ty) (args : List String) : Instr :=
  { op, dest := some dest, ty := some ty, args }

def constant (dest : String) (ty : Ty) (value : Literal) : Instr :=
  { op := "const", dest := some dest, ty := some ty, value := some value }

def jmp (target : String) : Instr :=
  { op := "jmp", labels := [target] }

def br (condition onTrue onFalse : String) : Instr :=
  { op := "br", args := [condition], labels := [onTrue, onFalse] }

def ret (args : List String) : Instr :=
  { op := "ret", args }

def terminator? (i : Instr) : Option Terminator :=
  Terminator.ofName? i.op

def isTerminator (i : Instr) : Bool :=
  i.terminator?.isSome

/-- The labels at which control may go on behind the instruction. -/
def targets (i : Instr) : List String :=
  match i.terminator? with
  | some .br | some .jmp => i.labels
  | some .ret | none => []

/-- Whether the instruction merges versions of a variable. -/
def isPhi (i : Instr) : Bool :=
  decide (i.op = "phi")

/-- The text of an instruction, with the parts in a fixed order. -/
def text (i : Instr) : String :=
  let dest := match i.dest, i.ty with
    | some dest, some ty => dest ++ ": " ++ ty.text ++ " = "
    | some dest, none => dest ++ " = "
    | none, _ => ""
  let value := match i.value with
    | some value => " " ++ value.text
    | none => ""
  dest ++ i.op ++ value ++ String.join (i.funcs.map (" @" ++ ·)) ++
    String.join (i.args.map (" " ++ ·)) ++ String.join (i.labels.map (" ." ++ ·)) ++ ";"

def agrees (i j : Instr) : Bool :=
  decide ({ i with value := none } = { j with value := none }) && Literal.agrees? i.value j.value

end Instr

end SsaForm
