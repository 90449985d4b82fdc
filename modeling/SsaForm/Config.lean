/-!
# Settings of the conversion

By default labels are checked while a graph is built, and where paths meet a variable
that one of them leaves unassigned is stood in for by a placeholder.
-/

namespace SsaForm

/-- What to do where paths meet and one of them leaves a variable unassigned. -/
inductive UnassignedPolicy where
  | placeholder
  | refuse
deriving DecidableEq

structure Config where
  unassigned : UnassignedPolicy := .placeholder
  placeholder : String := "__undefined"
  checkLabels : Bool := true
deriving DecidableEq

namespace Config

/-- Labels are not checked while a graph is built. -/
def lenient : Config :=
  { checkLabels := false }

/-- An unassigned variable is refused where paths meet. -/
def strict : Config :=
  { unassigned := .refuse }

end Config

end SsaForm
