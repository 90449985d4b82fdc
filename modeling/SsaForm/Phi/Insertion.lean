import SsaForm.Code.Block
import SsaForm.KeySet

/-!
# Phi insertion

Renaming decides which version every merge makes and which versions flow into it. The
merges are then written as instructions at the heads of their blocks.
-/

namespace SsaForm.Phi

/-- What renaming has decided about the merges of each block: the version that the merge of
a variable makes, and the versions that flow in, each with the block it comes from. -/
structure Tables where
  dests : Table String (Table String String) := ∅
  operands : Table String (Table String (List (String × String))) := ∅
deriving DecidableEq

namespace Tables

def operandsOf (tables : Tables) (block var : String) : List (String × String) :=
  (tables.operands.getD block ∅).getD var []

def addOperand (tables : Tables) (block var : String) (operand : String × String) : Tables :=
  let ofBlock := tables.operands.getD block ∅
  { tables with operands :=
      tables.operands.insert block (ofBlock.insert var (ofBlock.getD var [] ++ [operand])) }

def setDests (tables : Tables) (block : String) (dests : Table String String) : Tables :=
  { tables with dests := tables.dests.insert block dests }

end Tables

/-- The merges of a block as instructions, in ascending order of their variables. -/
def instrs (tables : Tables) (types : Table String Ty) (block : String) : List Instr :=
  (tables.dests.getD block ∅).toList.map fun (var, dest) =>
    let operands := tables.operandsOf block var
    { op := "phi", dest := some dest, ty := types[var]?,
      args := operands.map Prod.snd, labels := operands.map Prod.fst }

def insert (tables : Tables) (types : Table String Ty) (blocks : List Block) : List Block :=
  blocks.map fun b => { b with instrs := instrs tables types b.name ++ b.instrs }

def insertedCount (tables : Tables) (types : Table String Ty) (blocks : List Block) : Nat :=
  (blocks.flatMap fun b => instrs tables types b.name).length

end SsaForm.Phi
