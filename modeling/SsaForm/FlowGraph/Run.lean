import SsaForm.Code.Function

/-!
# Runs

A function body falls into runs: a run starts at a label, at the start of the body or
behind a terminator, and ends before the next label or behind its first terminator. A
label with nothing behind it makes an empty run.
-/

namespace SsaForm

/-- A run of instructions, with the label it starts at if there is one. -/
structure Run where
  label : Option String
  instrs : List Instr
deriving DecidableEq

namespace Run

/-- Takes a leading run without a label apart from the rest. -/
def takeOpen : List Run → List Instr × List Run
  | ⟨none, instrs⟩ :: rest => (instrs, rest)
  | runs => ([], runs)

def split : List Item → List Run
  | [] => []
  | .label name :: rest =>
    let (instrs, runs) := takeOpen (split rest)
    ⟨some name, instrs⟩ :: runs
  | .instr i :: rest =>
    if i.isTerminator then
      ⟨none, [i]⟩ :: split rest
    else
      let (instrs, runs) := takeOpen (split rest)
      ⟨none, i :: instrs⟩ :: runs

end Run

end SsaForm
