/-!
# JSON values

A number keeps the way it was written: a plain integer is told apart from a number with
a fraction or an exponent, since the two denote different kinds of literal.
-/

namespace SsaForm

namespace Json

/-- A number as written. Digits alone make an integer; a fraction, an exponent or the sign
of a zero make a decimal `± significand · 10 ^ exponent`. -/
inductive Number where
  | integer (value : Int)
  | decimal (negative : Bool) (significand : Nat) (exponent : Int)
deriving DecidableEq

end Json

/-- A JSON value. The fields of an object keep the order in which they were written, and a
name may stand there more than once. -/
inductive Json where
  | null
  | bool (value : Bool)
  | number (value : Json.Number)
  | string (value : String)
  | array (items : List Json)
  | object (fields : List (String × Json))

abbrev Json.Record := List (String × Json)

end SsaForm
