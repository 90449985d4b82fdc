import SsaForm.Binary64.Text

/-!
# Literals

A constant is a truth value, a sixty-four-bit integer or a double. Two literals are the
same constant if they are of one kind and have equal values, where doubles compare by
value and not by their bits.
-/

namespace SsaForm

/-- A constant of the program text. -/
inductive Literal where
  | bool (value : Bool)
  | int (value : Int64)
  | float (value : Binary64)
deriving DecidableEq

namespace Literal

def text : Literal → String
  | .bool true => "true"
  | .bool false => "false"
  | .int value => toString value.toInt
  | .float value => value.text

def agrees : Literal → Literal → Bool
  | .bool a, .bool b => decide (a = b)
  | .int a, .int b => decide (a = b)
  | .float a, .float b => a.sameValue b
  | _, _ => false

def agrees? : Option Literal → Option Literal → Bool
  | none, none => true
  | some a, some b => a.agrees b
  | _, _ => false

end Literal

end SsaForm
