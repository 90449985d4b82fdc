/-!
# Value types

A type is primitive, or a constructor applied to one inner type.
-/

namespace SsaForm

inductive Ty where
  | primitive (name : String)
  | parameterized (constructor : String) (inner : Ty)
deriving DecidableEq

namespace Ty

def pointer (inner : Ty) : Ty :=
  .parameterized "ptr" inner

/-- The text of a type, as in `ptr<int>`. -/
def text : Ty → String
  | .primitive name => name
  | .parameterized constructor inner => constructor ++ "<" ++ inner.text ++ ">"

end Ty

end SsaForm
