import SsaForm.Code.Instr

/-!
# Functions and programs

The body of a function is a flat list of labels and instructions.
-/

namespace SsaForm

inductive Item where
  | label (name : String)
  | instr (value : Instr)
deriving DecidableEq

namespace Item

/-- The text of a line, without its indentation. -/
def text : Item → String
  | .label name => "." ++ name ++ ":"
  | .instr value => value.text

def instr? : Item → Option Instr
  | .label _ => none
  | .instr value => some value

def agrees : Item → Item → Bool
  | .label a, .label b => decide (a = b)
  | .instr a, .instr b => a.agrees b
  | _, _ => false

end Item

structure Param where
  name : String
  ty : Ty
deriving DecidableEq

structure Function where
  name : String
  params : List Param := []
  result : Option Ty := none
  body : List Item := []
deriving DecidableEq

namespace Function

def instrs (f : Function) : List Instr :=
  f.body.filterMap Item.instr?

def heading (f : Function) : String :=
  let params := if f.params.isEmpty then ""
    else "(" ++ ", ".intercalate (f.params.map fun p => p.name ++ ": " ++ p.ty.text) ++ ")"
  let result := match f.result with
    | some ty => ": " ++ ty.text
    | none => ""
  "@" ++ f.name ++ params ++ result

/-- The text of a function: a heading and one line per item, instructions indented. -/
def text (f : Function) : String :=
  let line : Item → String
    | .label name => "." ++ name ++ ":\n"
    | .instr value => "  " ++ value.text ++ "\n"
  f.heading ++ " " ++ String.singleton '{' ++ "\n" ++ String.join (f.body.map line) ++
    String.singleton '}'

def agrees (f g : Function) : Bool :=
  decide ({ f with body := [] } = { g with body := [] }) && f.body.isEqv g.body Item.agrees

end Function

structure Program where
  functions : List Function
deriving DecidableEq

namespace Program

/-- The first function with a name. -/
def function? (p : Program) (name : String) : Option Function :=
  p.functions.find? fun f => f.name = name

/-- The text of a program: its functions, divided by blank lines. -/
def text (p : Program) : String :=
  "\n".intercalate (p.functions.map fun f => f.text ++ "\n")

def agrees (p q : Program) : Bool :=
  p.functions.isEqv q.functions Function.agrees

end Program

end SsaForm
