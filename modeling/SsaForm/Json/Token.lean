import SsaForm.Json.Basic

/-!
# JSON tokens

Text is cut into punctuation and atoms. An atom is a complete value without parts: a
quoted string, a number or a word. Blanks separate tokens and are dropped.
-/

namespace SsaForm.Json

inductive Token where
  | leftBrace
  | rightBrace
  | leftBracket
  | rightBracket
  | comma
  | colon
  | atom (value : Json)

/-- The part before the first character that satisfies a test, and the part behind that
character if there is one. -/
def cutAt (test : Char → Bool) (cs : List Char) : List Char × Option (List Char) :=
  (cs.takeWhile fun c => !test c, (cs.dropWhile fun c => !test c).tail?)

def digits? (cs : List Char) : Option Nat :=
  if !cs.isEmpty && cs.all Char.isDigit then
    some (cs.foldl (fun n c => 10 * n + (c.toNat - '0'.toNat)) 0)
  else
    none

/-- The exponent of a number: digits with an optional sign. -/
def exponent? : List Char → Option Int
  | '-' :: cs => (digits? cs).map fun n => -(n : Int)
  | '+' :: cs => (digits? cs).map fun n => (n : Int)
  | cs => (digits? cs).map fun n => (n : Int)

/-- A number without its sign. The whole part has no needless leading zero. -/
def Number.ofUnsigned? (negative : Bool) (cs : List Char) : Option Number := do
  let (mantissa, exponent) := cutAt (fun c => c = 'e' || c = 'E') cs
  let (whole, fraction) := cutAt (fun c => c = '.') mantissa
  let value ← digits? whole
  if whole.head? = some '0' ∧ whole ≠ ['0'] then
    none
  match fraction, exponent with
  | none, none =>
    if negative then
      some (if value = 0 then .decimal true 0 0 else .integer (-(value : Int)))
    else
      some (.integer value)
  | some places, none =>
    let _ ← digits? places
    let significand ← digits? (whole ++ places)
    some (.decimal negative significand (-(places.length : Int)))
  | none, some power =>
    let scale ← exponent? power
    some (.decimal negative value scale)
  | some places, some power =>
    let _ ← digits? places
    let significand ← digits? (whole ++ places)
    let scale ← exponent? power
    some (.decimal negative significand (scale - places.length))

def Number.ofChars? : List Char → Option Number
  | '-' :: cs => ofUnsigned? true cs
  | cs => ofUnsigned? false cs

/-- Reads a token that is neither punctuation nor quoted. -/
def wordAtom? (word : List Char) : Option Json :=
  if word = ['n', 'u', 'l', 'l'] then some .null
  else if word = ['t', 'r', 'u', 'e'] then some (.bool true)
  else if word = ['f', 'a', 'l', 's', 'e'] then some (.bool false)
  else (Number.ofChars? word).map .number

def isWordChar (c : Char) : Bool :=
  c.isAlphanum || c = '-' || c = '+' || c = '.'

def isBlank (c : Char) : Bool :=
  c = ' ' || c = '\t' || c = '\n' || c = '\r'

def hexDigit? (c : Char) : Option Nat :=
  if '0' ≤ c ∧ c ≤ '9' then some (c.toNat - '0'.toNat)
  else if 'a' ≤ c ∧ c ≤ 'f' then some (c.toNat - 'a'.toNat + 10)
  else if 'A' ≤ c ∧ c ≤ 'F' then some (c.toNat - 'A'.toNat + 10)
  else none

def unit? (a b c d : Char) : Option Nat := do
  let a ← hexDigit? a
  let b ← hexDigit? b
  let c ← hexDigit? c
  let d ← hexDigit? d
  some (((a * 16 + b) * 16 + c) * 16 + d)

def escaped? : Char → Option Char
  | '"' => some '"'
  | '\\' => some '\\'
  | '/' => some '/'
  | 'b' => some '\x08'
  | 'f' => some '\x0c'
  | 'n' => some '\n'
  | 'r' => some '\r'
  | 't' => some '\t'
  | _ => none

/-- The character that a high and a low unit denote together. -/
def pairChar (high low : Nat) : Char :=
  Char.ofNat (0x10000 + (high - 0xD800) * 0x400 + (low - 0xDC00))

mutual

/-- Cuts text into tokens. The characters of a word that goes on are held back, last
first. -/
def scan (held : List Char) : List Char → Option (List Token)
  | [] => some []
  | '{' :: cs => (scan [] cs).map (.leftBrace :: ·)
  | '}' :: cs => (scan [] cs).map (.rightBrace :: ·)
  | '[' :: cs => (scan [] cs).map (.leftBracket :: ·)
  | ']' :: cs => (scan [] cs).map (.rightBracket :: ·)
  | ',' :: cs => (scan [] cs).map (.comma :: ·)
  | ':' :: cs => (scan [] cs).map (.colon :: ·)
  | '"' :: cs => scanQuoted [] cs
  | c :: cs =>
    if isBlank c then
      scan [] cs
    else if isWordChar c then
      if cs.head?.any isWordChar then
        scan (c :: held) cs
      else do
        let value ← wordAtom? (c :: held).reverse
        let tokens ← scan [] cs
        some (.atom value :: tokens)
    else
      none

/-- Reads the rest of a quoted string whose characters so far are given last first, and
then the tokens behind it. -/
def scanQuoted (read : List Char) : List Char → Option (List Token)
  | [] => none
  | '"' :: cs => (scan [] cs).map (.atom (.string (String.ofList read.reverse)) :: ·)
  | '\\' :: 'u' :: a :: b :: c :: d :: cs => do
    let unit ← unit? a b c d
    if 0xD800 ≤ unit ∧ unit < 0xDC00 then
      match cs with
      | '\\' :: 'u' :: e :: f :: g :: h :: cs =>
        let low ← unit? e f g h
        if 0xDC00 ≤ low ∧ low < 0xE000 then
          scanQuoted (pairChar unit low :: read) cs
        else
          none
      | _ => none
    else if 0xDC00 ≤ unit ∧ unit < 0xE000 then
      none
    else
      scanQuoted (Char.ofNat unit :: read) cs
  | '\\' :: c :: cs => do
    let c ← escaped? c
    scanQuoted (c :: read) cs
  | c :: cs => if c.toNat < 0x20 then none else scanQuoted (c :: read) cs

end

def tokens? (text : String) : Option (List Token) :=
  scan [] text.toList

end SsaForm.Json
