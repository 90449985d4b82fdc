import SsaForm.Code.Instr
import SsaForm.KeySet

/-!
# Versions

Every assignment of a variable `v` makes a new version `v.0`, `v.1` and so on. The
versions in scope form one stack per variable with the newest on top; a variable without
versions in scope has no stack. Leaving a scope takes its versions off the stacks, while
the numbering goes on.
-/

namespace SsaForm

/-- The versions in scope, and the number of the next version of each variable. -/
structure Versions where
  inScope : Table String (List String)
  counters : Table String Nat

namespace Versions

/-- At the start each parameter is in scope under its own name. -/
def ofParams (params : List String) : Versions :=
  ⟨.ofList (params.map fun param => (param, [param])), ∅⟩

/-- The versions of a variable in scope, newest first. -/
def stack (s : Versions) (var : String) : List String :=
  s.inScope.getD var []

def withStack (s : Versions) (var : String) (versions : List String) : Versions :=
  { s with
    inScope := if versions.isEmpty then s.inScope.erase var else s.inScope.insert var versions }

theorem stack_withStack {s : Versions} {var other : String} {versions : List String} :
    (s.withStack var versions).stack other = if var = other then versions else s.stack other := by
  cases versions with
  | nil => simp [withStack, stack, Std.ExtTreeMap.getD_erase]
  | cons version older => simp [withStack, stack, Std.ExtTreeMap.getD_insert]

def current? (s : Versions) (var : String) : Option String :=
  (s.stack var).head?

/-- What a mention of a name stands for: the newest version if the name is a variable in
scope, and the name itself otherwise. -/
def resolve (s : Versions) (name : String) : String :=
  (s.current? name).getD name

def next (s : Versions) (var : String) : String :=
  var ++ "." ++ toString (s.counters.getD var 0)

def push (s : Versions) (var : String) : Versions :=
  let pushed := s.withStack var (s.next var :: s.stack var)
  { pushed with counters := s.counters.insert var (s.counters.getD var 0 + 1) }

theorem stack_push {s : Versions} {var other : String} :
    (s.push var).stack other = if var = other then s.next var :: s.stack var else s.stack other :=
  stack_withStack

def pop (s : Versions) (var : String) : Versions :=
  s.withStack var (s.stack var).tail

theorem stack_pop {s : Versions} {var other : String} :
    (s.pop var).stack other = if var = other then (s.stack var).tail else s.stack other :=
  stack_withStack

/-- Takes one version out of scope for each mention of a variable. -/
def popAll (s : Versions) (vars : List String) : Versions :=
  vars.foldl pop s

def pushAll (s : Versions) : List String → List (String × String) × Versions
  | [] => ([], s)
  | var :: rest =>
    let (made, scope) := (s.push var).pushAll rest
    ((var, s.next var) :: made, scope)

/-- Renames an instruction: its arguments stand for versions in scope, and its destination
becomes a new version. -/
def renameInstr (s : Versions) (i : Instr) : Instr × Versions :=
  let args := i.args.map s.resolve
  match i.dest with
  | none => ({ i with args }, s)
  | some var => ({ i with args, dest := some (s.next var) }, s.push var)

def renameInstrs (s : Versions) : List Instr → List Instr × Versions
  | [] => ([], s)
  | i :: rest =>
    let (renamed, scope) := s.renameInstr i
    let (others, scope) := scope.renameInstrs rest
    (renamed :: others, scope)

end Versions

end SsaForm
