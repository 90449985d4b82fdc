/-!
# Faults

What can be wrong with a function or a graph, each with its cause.
-/

namespace SsaForm

inductive Fault where
  /-- A checked label that no block bears. -/
  | unknownLabel (block label : String)
  /-- A label that stands twice in one body. -/
  | repeatedLabel (name : String)
  /-- A variable that is unassigned at the end of a block that leads to a merge of it. -/
  | unassigned (var block : String)
  /-- An edge to a label that no block of the graph bears. -/
  | danglingEdge (block label : String)
  /-- A node of the dominator tree that is no block. -/
  | strayTreeNode (name : String)
deriving DecidableEq

/-- The wording of a fault. One that construction and analyses exclude is reported with the place
where it was noticed. -/
def Fault.message (place : String) : Fault → String
  | .unknownLabel block label =>
    "Block '" ++ block ++ "' references unknown block '" ++ label ++ "'"
  | .repeatedLabel name => "Duplicate block name '" ++ name ++ "'"
  | .unassigned var block =>
    "Variable '" ++ var ++ "' is undefined on the path from block '" ++ block ++ "'"
  | .danglingEdge block label =>
    "Block '" ++ block ++ "' branches to unknown block '" ++ label ++ "' (" ++ place ++ ")"
  | .strayTreeNode name =>
    "Dominator tree names unknown block '" ++ name ++ "' (" ++ place ++ ")"

end SsaForm
