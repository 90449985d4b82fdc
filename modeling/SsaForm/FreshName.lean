import SsaForm.KeySet

/-!
# Fresh names

A fresh name is a stem followed by the least positive number that makes it unused.
-/

namespace SsaForm

/-- The first name that is not in use, counting from `n`. A candidate found in use is
taken out of the set, so no more candidates are tried than the set has members, and one. -/
def freshNameFrom (stem : String) (n : Nat) (used : KeySet String) : String :=
  if stem ++ toString n ∈ used then
    freshNameFrom stem (n + 1) (used.erase (stem ++ toString n))
  else
    stem ++ toString n
termination_by used.size
decreasing_by exact KeySet.size_erase_lt ‹_›

/-- The first unused name among `stem1`, `stem2` and so on. -/
def freshName (stem : String) (used : KeySet String) : String :=
  freshNameFrom stem 1 used

end SsaForm
