import SsaForm.Json.Basic

/-!
# Writing JSON

Values are written on one line without blanks. Inside quotes, only the quote, the
backslash and control characters are escaped.
-/

namespace SsaForm.Json

/-- A number in a form that is read back as the same number. -/
def Number.render : Number → String
  | .integer value => toString value
  | .decimal negative significand exponent =>
    (if negative then "-" else "") ++ toString significand ++ "e" ++ toString exponent

def hexChar (n : Nat) : Char :=
  if n < 10 then Char.ofNat ('0'.toNat + n) else Char.ofNat ('a'.toNat + (n - 10))

def quoteChar (c : Char) : List Char :=
  if c = '"' then ['\\', '"']
  else if c = '\\' then ['\\', '\\']
  else if c.toNat < 0x20 then
    ['\\', 'u', '0', '0', hexChar (c.toNat / 16), hexChar (c.toNat % 16)]
  else [c]

def quote (text : String) : String :=
  "\"" ++ String.ofList (text.toList.flatMap quoteChar) ++ "\""

mutual

def render : Json → String
  | .null => "null"
  | .bool true => "true"
  | .bool false => "false"
  | .number value => value.render
  | .string value => quote value
  | .array items => "[" ++ ",".intercalate (renderItems items) ++ "]"
  | .object fields =>
    String.singleton '{' ++ ",".intercalate (renderFields fields) ++ String.singleton '}'

def renderItems : List Json → List String
  | [] => []
  | item :: rest => render item :: renderItems rest

def renderFields : List (String × Json) → List String
  | [] => []
  | (name, value) :: rest => (quote name ++ ":" ++ render value) :: renderFields rest

end

end SsaForm.Json
