import SsaForm.Binary64.Rounding
import SsaForm.Code.Block
import SsaForm.Code.Function
import SsaForm.Json.Basic

/-!
# Programs from JSON

A record is read from an object or from an array. In an object its fields stand in any order,
each at most once, and other fields are ignored; in an array they stand in a fixed order, and
those that may be absent may be missing at the end. A field that may be absent may also be
null, except for lists, which are empty if absent and have to be lists if present.
-/

namespace SsaForm

namespace Json

def string? : Json → Option String
  | .string value => some value
  | _ => none

def items? {α : Type} (read : Json → Option α) : Json → Option (List α)
  | .array items => items.mapM read
  | _ => none

/-- The fields that a value gives to a record with fields of given names. -/
def record? (names : List String) : Json → Option Record
  | .object fields =>
    -- Fields that the record does not have may be repeated.
    let known := fields.filter fun field => field.1 ∈ names
    if (known.map Prod.fst).Nodup then some known else none
  | .array items => if items.length ≤ names.length then some (names.zip items) else none
  | _ => none

namespace Record

def required? {α : Type} (read : Json → Option α) (name : String) (record : Record) : Option α :=
  (record.lookup name).bind read

/-- A field that may be absent or null. -/
def nullable? {α : Type} (read : Json → Option α) (name : String) (record : Record) :
    Option (Option α) :=
  match record.lookup name with
  | none | some .null => some none
  | some value => (read value).map some

/-- A list that is empty if the field is absent. -/
def list? {α : Type} (read : Json → Option α) (name : String) (record : Record) :
    Option (List α) :=
  match record.lookup name with
  | none => some []
  | some value => value.items? read

end Record

end Json

namespace Ty

/-- The constructor that all fields name, with the type that the last of them gives. -/
def application? (fields : List (String × Ty)) : Option (String × Ty) := do
  let last ← fields.getLast?
  if ∀ field ∈ fields, field.1 = last.1 then some last else none

mutual

/-- A type is a string, or an object with one constructor and its inner type. -/
def ofJson? : Json → Option Ty
  | .string name => some (.primitive name)
  | .object fields => do
    let (constructor, inner) ← application? (← ofFields? fields)
    some (.parameterized constructor inner)
  | _ => none

def ofFields? : Json.Record → Option (List (String × Ty))
  | [] => some []
  | (name, value) :: rest => do some ((name, ← ofJson? value) :: (← ofFields? rest))

end

inductive ShapeFault where
  | malformed
  | constructorCount
deriving DecidableEq

/-- The explanation of a fault; one that concerns a part of the value has none. -/
def ShapeFault.message? : ShapeFault → Option String
  | .malformed => none
  | .constructorCount => some "parameterized type must have exactly one constructor"

/-- A constructor with its inner type. An object whose fields are all types, but which has
not exactly one constructor, is told apart from every other value. -/
def applicationOfJson : Json → Except ShapeFault (String × Ty)
  | .object fields =>
    match ofFields? fields with
    | none => .error .malformed
    | some types =>
      match application? types with
      | some application => .ok application
      | none => .error .constructorCount
  | _ => .error .malformed

end Ty

/-- A number is an integer if it is written as one and fits into sixty-four bits, and
the nearest double otherwise. -/
def Literal.ofNumber : Json.Number → Literal
  | .integer value =>
    if Int64.minValue.toInt ≤ value ∧ value ≤ Int64.maxValue.toInt then
      .int (.ofInt value)
    else
      .float (.ofDecimal (decide (value < 0)) value.natAbs 0)
  | .decimal negative significand exponent => .float (.ofDecimal negative significand exponent)

def Literal.ofJson? : Json → Option Literal
  | .bool value => some (.bool value)
  | .number value => some (.ofNumber value)
  | _ => none

def Instr.ofJson? (j : Json) : Option Instr := do
  let record ← j.record? ["op", "dest", "type", "args", "labels", "funcs", "value"]
  let op ← record.required? Json.string? "op"
  let dest ← record.nullable? Json.string? "dest"
  let ty ← record.nullable? Ty.ofJson? "type"
  let args ← record.list? Json.string? "args"
  let labels ← record.list? Json.string? "labels"
  let funcs ← record.list? Json.string? "funcs"
  let value ← record.nullable? Literal.ofJson? "value"
  some { op, dest, ty, args, labels, funcs, value }

/-- The name of a label. Unlike other records a label is never an array. -/
def Item.labelOfJson? : Json → Option String
  | .object fields => do
    let record ← Json.record? ["label"] (.object fields)
    record.required? Json.string? "label"
  | _ => none

/-- What can be read as a label is one, whatever else it holds. -/
def Item.ofJson? (j : Json) : Option Item :=
  match labelOfJson? j with
  | some name => some (.label name)
  | none => (Instr.ofJson? j).map .instr

def Param.ofJson? (j : Json) : Option Param := do
  let record ← j.record? ["name", "type"]
  let name ← record.required? Json.string? "name"
  let ty ← record.required? Ty.ofJson? "type"
  some { name, ty }

def Function.ofJson? (j : Json) : Option Function := do
  let record ← j.record? ["name", "args", "type", "instrs"]
  let name ← record.required? Json.string? "name"
  let params ← record.list? Param.ofJson? "args"
  let result ← record.nullable? Ty.ofJson? "type"
  let body ← record.list? Item.ofJson? "instrs"
  some { name, params, result, body }

def Program.ofJson? (j : Json) : Option Program := do
  let record ← j.record? ["functions"]
  let functions ← record.required? (Json.items? Function.ofJson?) "functions"
  some { functions }

def Block.ofJson? (j : Json) : Option Block := do
  let record ← j.record? ["name", "instrs"]
  let name ← record.required? Json.string? "name"
  let instrs ← record.required? (Json.items? Instr.ofJson?) "instrs"
  some { name, instrs }

end SsaForm
