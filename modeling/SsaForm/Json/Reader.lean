import SsaForm.Json.Token

/-!
# Reading JSON

The reader keeps the containers that are still open, innermost first, and consumes one
token or more at every step.
-/

namespace SsaForm.Json

/-- A container that is still open: what it holds so far, last first, and for an object
the name of the field whose value comes next. -/
inductive Frame where
  | array (items : List Json)
  | object (fields : List (String × Json)) (name : String)

mutual

def expectValue (frames : List Frame) : List Token → Option Json
  | .atom value :: rest => afterValue value frames rest
  | .leftBracket :: .rightBracket :: rest => afterValue (.array []) frames rest
  | .leftBracket :: rest => expectValue (.array [] :: frames) rest
  | .leftBrace :: .rightBrace :: rest => afterValue (.object []) frames rest
  | .leftBrace :: .atom (.string name) :: .colon :: rest =>
    expectValue (.object [] name :: frames) rest
  | _ => none

/-- Reads on behind a complete value, which is handed to the innermost open container. -/
def afterValue (value : Json) : List Frame → List Token → Option Json
  | [], [] => some value
  | .array items :: frames, .comma :: rest => expectValue (.array (value :: items) :: frames) rest
  | .array items :: frames, .rightBracket :: rest =>
    afterValue (.array (value :: items).reverse) frames rest
  | .object fields name :: frames, .comma :: .atom (.string next) :: .colon :: rest =>
    expectValue (.object ((name, value) :: fields) next :: frames) rest
  | .object fields name :: frames, .rightBrace :: rest =>
    afterValue (.object ((name, value) :: fields).reverse) frames rest
  | _, _ => none

end

def parse? (text : String) : Option Json := do
  let tokens ← tokens? text
  expectValue [] tokens

end SsaForm.Json
