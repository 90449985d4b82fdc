import SsaForm.Code.Block
import SsaForm.Code.Function
import SsaForm.Json.Basic

/-!
# Programs as JSON

Parts that are absent or empty are left out. A double is written with the digits that
identify it, and always as a decimal, so that it is not taken for an integer; a number
without a decimal form is written as null.
-/

namespace SsaForm

namespace Json

variable {α : Type}

/-- A field that is left out if it has no value. -/
def optionalField (name : String) (write : α → Json) : Option α → Record
  | some value => [(name, write value)]
  | none => []

/-- A list as a field that is left out if the list is empty. -/
def listField (name : String) (write : α → Json) : List α → Record
  | [] => []
  | items => [(name, .array (items.map write))]

end Json

def Ty.toJson : Ty → Json
  | .primitive name => .string name
  | .parameterized constructor inner => .object [(constructor, inner.toJson)]

def Binary64.toJson (x : Binary64) : Json :=
  match x.size with
  | .finite value =>
    let decimal := value.shortest
    .number (.decimal x.negative decimal.digits decimal.scale)
  | .infinite | .nan => .null

def Literal.toJson : Literal → Json
  | .bool value => .bool value
  | .int value => .number (.integer value.toInt)
  | .float value => value.toJson

def Instr.fields (i : Instr) : Json.Record :=
  ("op", .string i.op) ::
    (Json.optionalField "dest" .string i.dest ++
      Json.optionalField "type" Ty.toJson i.ty ++
      Json.listField "args" .string i.args ++
      Json.listField "labels" .string i.labels ++
      Json.listField "funcs" .string i.funcs ++
      Json.optionalField "value" Literal.toJson i.value)

def Instr.toJson (i : Instr) : Json :=
  .object i.fields

def Item.toJson : Item → Json
  | .label name => .object [("label", .string name)]
  | .instr value => value.toJson

def Param.toJson (p : Param) : Json :=
  .object [("name", .string p.name), ("type", p.ty.toJson)]

/-- The body of a function is written even if it is empty. -/
def Function.fields (f : Function) : Json.Record :=
  ("name", .string f.name) ::
    (Json.listField "args" Param.toJson f.params ++
      Json.optionalField "type" Ty.toJson f.result ++
      [("instrs", .array (f.body.map Item.toJson))])

def Function.toJson (f : Function) : Json :=
  .object f.fields

def Program.toJson (p : Program) : Json :=
  .object [("functions", .array (p.functions.map Function.toJson))]

def Block.toJson (b : Block) : Json :=
  .object [("name", .string b.name), ("instrs", .array (b.instrs.map Instr.toJson))]

end SsaForm
