import SsaForm.Proofs.FlowGraph.WellFormed

/-!
# Execution

What the operations do is left to an interpretation over any values and any world; an
argument may be undefined. A graph is executed block by block. The merges at the head of a
block all read the values at the end of the block that control comes from, and then the
other instructions are executed up to the first terminator. An execution is observed through
the blocks it passes and the calls that each of them makes.
-/

namespace SsaForm.Execution

variable {V W : Type}

/-- What an operation is called with. -/
structure Call (V W : Type) where
  op : String
  funcs : List String
  value : Option Literal
  ty : Option Ty
  args : List (Option V)
  world : W

/-- What a call comes to: its result, the world behind it and, for a branch, the number of
the label that is taken. -/
structure Effect (V W : Type) where
  result : Option V
  world : W
  choice : Nat

/-- A meaning of the operations. -/
abbrev Interpretation (V W : Type) := Call V W → Effect V W

/-- The values of the variables that have one. -/
abbrev Env (V : Type) := String → Option V

def Env.assign (env : Env V) (dest : Option String) (result : Option V) : Env V := fun name =>
  if dest = some name then result else env name

/-- How control leaves a block. -/
inductive Exit where
  | goto (label : String)
  | halt
  | stuck

/-- Control goes on at a label, if there is one. -/
def Exit.ofLabel? : Option String → Exit
  | some label => .goto label
  | none => .stuck

/-- Where control goes behind an instruction, if it ends the block. -/
def exit? (i : Instr) (choice : Nat) : Option Exit :=
  match i.terminator? with
  | some .jmp => some (.ofLabel? i.labels[0]?)
  | some .br => some (.ofLabel? i.labels[choice]?)
  | some .ret => some .halt
  | none => none

def callOf (i : Instr) (env : Env V) (world : W) : Call V W :=
  ⟨i.op, i.funcs, i.value, i.ty, i.args.map env, world⟩

/-- What executing instructions comes to. -/
structure Outcome (V W : Type) where
  calls : List (Call V W)
  exit : Exit
  env : Env V
  world : W

/-- Executes instructions up to the first terminator. -/
def execute (meaning : Interpretation V W) (env : Env V) (world : W) :
    List Instr → Outcome V W
  | [] => ⟨[], .stuck, env, world⟩
  | i :: rest =>
    let call := callOf i env world
    let effect := meaning call
    let after := env.assign i.dest effect.result
    match exit? i effect.choice with
    | some exit => ⟨[call], exit, after, effect.world⟩
    | none =>
      let outcome := execute meaning after effect.world rest
      { outcome with calls := call :: outcome.calls }

/-- The value that flows into a merge from the block that control comes from. -/
def flowing (env : Env V) (source : Option String) (phi : Instr) : Option V :=
  (source.bind fun label => (phi.labels.zip phi.args).find? fun operand => operand.1 = label).bind
    fun operand => env operand.2

/-- Evaluates merges side by side. -/
def enter (env : Env V) (source : Option String) (phis : List Instr) : Env V := fun name =>
  match phis.find? fun phi => phi.dest = some name with
  | some phi => flowing env source phi
  | none => env name

/-- One executed block: its name, the calls it makes and how control leaves it. -/
structure Passage (V W : Type) where
  block : String
  calls : List (Call V W)
  exit : Exit

/-- Where control is, where it comes from, and with what. -/
structure Point (V W : Type) where
  block : String
  source : Option String
  env : Env V
  world : W

/-- Executes the instructions of a block. -/
def passBlock (meaning : Interpretation V W) (b : Block) (point : Point V W) : Outcome V W :=
  execute meaning (enter point.env point.source b.phis) point.world (b.instrs.dropWhile Instr.isPhi)

/-- Executes a number of blocks, fewer if control does not get that far. -/
def run (meaning : Interpretation V W) (g : FlowGraph) : Nat → Point V W → List (Passage V W)
  | 0, _ => []
  | steps + 1, point =>
    match g.block? point.block with
    | none => []
    | some b =>
      let outcome := passBlock meaning b point
      ⟨point.block, outcome.calls, outcome.exit⟩ ::
        match outcome.exit with
        | .goto label => run meaning g steps ⟨label, some point.block, outcome.env, outcome.world⟩
        | .halt | .stuck => []

/-- At the start the parameters have their values, and no other variable has one. -/
def paramEnv (params : List Param) (valuation : String → Option V) : Env V := fun name =>
  if name ∈ params.map Param.name then valuation name else none

/-- Executes a graph from its entry. -/
def trace (meaning : Interpretation V W) (g : FlowGraph) (valuation : String → Option V)
    (world : W) (steps : Nat) : List (Passage V W) :=
  match g.entry? with
  | none => []
  | some entry => run meaning g steps ⟨entry, none, paramEnv g.params valuation, world⟩

section Leaving

variable {meaning : Interpretation V W} {env : Env V} {world : W}

theorem exit?_eq_none {i : Instr} {choice : Nat} :
    exit? i choice = none ↔ i.isTerminator = false := by
  rw [exit?, Instr.isTerminator]
  cases i.terminator? with
  | none => simp
  | some t => cases t <;> simp

theorem mem_targets_of_exit? {i : Instr} {choice : Nat} {label : String}
    (leaves : exit? i choice = some (.goto label)) : label ∈ i.targets := by
  have labelled : ∀ {found : Option String}, Exit.ofLabel? found = .goto label →
      found = some label := by
    intro found leaves
    cases found with
    | none => cases leaves
    | some other =>
      cases leaves
      rfl
  rw [exit?] at leaves
  rw [Instr.targets]
  cases kind : i.terminator? with
  | none => simp [kind] at leaves
  | some t =>
    cases t with
    | br =>
      simp only [kind, Option.some.injEq] at leaves
      exact List.mem_of_getElem? (labelled leaves)
    | jmp =>
      simp only [kind, Option.some.injEq] at leaves
      exact List.mem_of_getElem? (labelled leaves)
    | ret => simp [kind] at leaves

theorem terminal_of_cons {i : Instr} {rest : List Instr} (terminal : Terminal (i :: rest)) :
    Terminal rest := by
  cases rest with
  | nil => exact fun _ member => absurd member List.not_mem_nil
  | cons second others =>
    rw [Terminal, List.dropLast_cons_cons, List.forall_mem_cons] at terminal
    exact terminal.2

/-- Nothing stands behind an instruction that ends its block. -/
theorem eq_nil_of_exit? {i : Instr} {rest : List Instr} (terminal : Terminal (i :: rest))
    {choice : Nat} {exit : Exit} (ends : exit? i choice = some exit) : rest = [] := by
  cases rest with
  | nil => rfl
  | cons second others =>
    rw [Terminal, List.dropLast_cons_cons, List.forall_mem_cons] at terminal
    rw [exit?_eq_none.mpr terminal.1] at ends
    cases ends

/-- Control goes on only at targets of the block. -/
theorem mem_targets_of_goto {instrs : List Instr} (terminal : Terminal instrs) {name label : String}
    (leaves : (execute meaning env world instrs).exit = .goto label) :
    label ∈ (Block.mk name instrs).targets := by
  induction instrs generalizing env world with
  | nil => cases leaves
  | cons i rest inductionHypothesis =>
    rw [execute] at leaves
    cases ends : exit? i (meaning (callOf i env world)).choice with
    | some exit =>
      simp only [ends] at leaves
      subst leaves
      cases eq_nil_of_exit? terminal ends
      exact mem_targets_of_exit? ends
    | none =>
      simp only [ends] at leaves
      have later := inductionHypothesis (terminal_of_cons terminal) leaves
      cases rest with
      | nil => exact absurd later List.not_mem_nil
      | cons second others => exact later

end Leaving

theorem enter_nil (env : Env V) (source : Option String) : enter env source [] = env := rfl

end SsaForm.Execution
