import SsaForm.Proofs.Naming

/-!
# Scopes

A block makes versions of its merged variables and then of the variables it assigns, so a
scope is only ever extended by a list of variables. The versions that this makes are told by
the counters alone, and the scope in front of it comes back once the listed variables are
dropped again.
-/

namespace SsaForm.Versions

/-- The number that the next version of a variable gets. -/
def counter (s : Versions) (var : String) : Nat :=
  s.counters.getD var 0

/-- The scope behind a new version of each listed variable. -/
def extend (s : Versions) (vars : List String) : Versions :=
  vars.foldl push s

/-- The new versions of listed variables, in order. -/
def numbered (s : Versions) : List String → List String
  | [] => []
  | var :: rest => s.next var :: (s.push var).numbered rest

@[simp] theorem numbered_nil (s : Versions) : s.numbered [] = [] := rfl

@[simp] theorem numbered_cons (s : Versions) (var : String) (rest : List String) :
    s.numbered (var :: rest) = s.next var :: (s.push var).numbered rest := rfl

theorem next_eq_versionName (s : Versions) (var : String) :
    s.next var = versionName var (s.counter var) := rfl

theorem counter_push {s : Versions} {var other : String} :
    (s.push var).counter other = s.counter other + if var = other then 1 else 0 := by
  rw [counter, push, Std.ExtTreeMap.getD_insert]
  by_cases same : var = other
  · simp [same, counter]
  · simp [same, counter]

theorem counter_ofParams (params : List String) (var : String) :
    (ofParams params).counter var = 0 :=
  Std.ExtTreeMap.getD_empty

@[simp] theorem extend_nil (s : Versions) : s.extend [] = s := rfl

@[simp] theorem extend_cons (s : Versions) (var : String) (rest : List String) :
    s.extend (var :: rest) = (s.push var).extend rest := rfl

theorem extend_append (s : Versions) (first second : List String) :
    s.extend (first ++ second) = (s.extend first).extend second :=
  List.foldl_append

section Numbering

variable {s t : Versions} {vars : List String} {version : String}

/-- The versions are numbered on from the counters, without gaps. -/
theorem mem_numbered :
    version ∈ s.numbered vars ↔
      ∃ var number, version = versionName var number ∧
        s.counter var ≤ number ∧ number < s.counter var + vars.count var := by
  induction vars generalizing s with
  | nil =>
    refine iff_of_false List.not_mem_nil ?_
    intro bounded
    obtain ⟨var, number, _, lower, upper⟩ := bounded
    exact absurd upper (Nat.not_lt.mpr lower)
  | cons first rest inductionHypothesis =>
    rw [numbered_cons, List.mem_cons, inductionHypothesis]
    simp only [counter_push, List.count_cons, beq_iff_eq]
    constructor
    · intro made
      rcases made with rfl | ⟨var, number, rfl, lower, upper⟩
      · exact ⟨first, s.counter first, rfl, Nat.le_refl _, by simp⟩
      · exact ⟨var, number, rfl, by omega, by omega⟩
    · intro made
      obtain ⟨var, number, rfl, lower, upper⟩ := made
      by_cases newest : first = var ∧ number = s.counter var
      · obtain ⟨rfl, rfl⟩ := newest
        exact .inl rfl
      · refine .inr ⟨var, number, rfl, ?_, by omega⟩
        by_cases same : first = var
        · have further : number ≠ s.counter var := fun equal => newest ⟨same, equal⟩
          rw [if_pos same]
          omega
        · rw [if_neg same]
          exact lower

theorem not_mem_numbered (apart : ∀ var ∈ vars, ∀ number, version ≠ versionName var number) :
    version ∉ s.numbered vars := by
  intro made
  obtain ⟨var, number, equal, _, bounded⟩ := mem_numbered.mp made
  have listed : var ∈ vars := List.count_pos_iff.mp (by omega)
  exact apart var listed number equal

theorem mem_of_mem_numbered {var : String} {number : Nat}
    (made : versionName var number ∈ s.numbered vars) : var ∈ vars := by
  obtain ⟨other, _, equal, _, bounded⟩ := mem_numbered.mp made
  obtain ⟨rfl, _⟩ := versionName_injective equal
  exact List.count_pos_iff.mp (by omega)

theorem nodup_numbered : (s.numbered vars).Nodup := by
  induction vars generalizing s with
  | nil => exact List.nodup_nil
  | cons first rest inductionHypothesis =>
    rw [numbered_cons, List.nodup_cons]
    refine ⟨?_, inductionHypothesis⟩
    rw [mem_numbered]
    intro again
    obtain ⟨var, number, equal, lower, _⟩ := again
    obtain ⟨rfl, rfl⟩ := versionName_injective equal
    rw [counter_push, if_pos rfl] at lower
    exact absurd lower (Nat.not_succ_le_self _)

theorem numbered_append (first second : List String) :
    s.numbered (first ++ second) = s.numbered first ++ (s.extend first).numbered second := by
  induction first generalizing s with
  | nil => rfl
  | cons var rest inductionHypothesis =>
    rw [List.cons_append, numbered_cons, inductionHypothesis, numbered_cons, extend_cons,
      List.cons_append]

theorem length_numbered : (s.numbered vars).length = vars.length := by
  induction vars generalizing s with
  | nil => rfl
  | cons var rest inductionHypothesis =>
    rw [numbered_cons, List.length_cons, inductionHypothesis, List.length_cons]

/-- The new versions of one variable take the next numbers in order. -/
theorem zip_numbered (var : String) :
    ((vars.zip (s.numbered vars)).filterMap fun pair =>
        if pair.1 = var then some pair.2 else none) =
      (List.range (vars.count var)).map fun k => versionName var (s.counter var + k) := by
  induction vars generalizing s with
  | nil => rfl
  | cons first rest inductionHypothesis =>
    rw [numbered_cons, List.zip_cons_cons, List.filterMap_cons, inductionHypothesis, counter_push,
      List.count_cons]
    by_cases same : first = var
    · subst same
      simp [List.range_succ_eq_map, next_eq_versionName, Function.comp_def, Nat.add_assoc,
        Nat.add_comm 1]
    · simp [same]

/-- Only the counters matter for the versions to come. -/
theorem numbered_congr (same : s.counters = t.counters) : s.numbered vars = t.numbered vars := by
  induction vars generalizing s t with
  | nil => rfl
  | cons var rest inductionHypothesis =>
    have sameNext : s.next var = t.next var := by rw [next, next, same]
    have sameAfter : (s.push var).counters = (t.push var).counters := by
      simp only [push, same]
    rw [numbered_cons, numbered_cons, sameNext, inductionHypothesis sameAfter]

theorem counters_extend_congr (same : s.counters = t.counters) :
    (s.extend vars).counters = (t.extend vars).counters := by
  induction vars generalizing s t with
  | nil => exact same
  | cons var rest inductionHypothesis =>
    apply inductionHypothesis
    simp only [push, same]

end Numbering

section Stacks

variable {s t : Versions} {vars params : List String} {var version : String}

theorem stack_ofParams :
    (ofParams params).stack var = if var ∈ params then [var] else [] := by
  suffices inserted : ∀ table : Table String (List String),
      (table.insertMany (params.map fun param => (param, [param]))).getD var [] =
        if var ∈ params then [var] else table.getD var [] by
    rw [stack, ofParams, Std.ExtTreeMap.ofList_eq_insertMany_empty, inserted ∅,
      Std.ExtTreeMap.getD_empty]
  intro table
  induction params generalizing table with
  | nil => rfl
  | cons param rest inductionHypothesis =>
    rw [List.map_cons, Std.ExtTreeMap.insertMany_cons, inductionHypothesis,
      Std.ExtTreeMap.getD_insert]
    simp only [List.mem_cons]
    by_cases later : var ∈ rest
    · simp [later]
    · by_cases same : param = var
      · simp [same]
      · simp [later, same, Ne.symm same]

/-- The new versions of a variable lie on top of its stack, the newest first. -/
theorem stack_extend :
    (s.extend vars).stack var =
      ((List.range (vars.count var)).map fun k => versionName var (s.counter var + k)).reverse ++
        s.stack var := by
  induction vars generalizing s with
  | nil => simp
  | cons first rest inductionHypothesis =>
    rw [extend_cons, inductionHypothesis, stack_push, counter_push, List.count_cons]
    by_cases same : first = var
    · subst same
      simp [List.range_succ_eq_map, next_eq_versionName, Function.comp_def, Nat.add_assoc,
        Nat.add_comm 1]
    · simp [same]

theorem stack_extend_of_not_mem (missing : var ∉ vars) :
    (s.extend vars).stack var = s.stack var := by
  rw [stack_extend, List.count_eq_zero.mpr missing]
  rfl

theorem current?_extend_ne_none (listed : var ∈ vars) : (s.extend vars).current? var ≠ none := by
  have count : 0 < vars.count var := List.count_pos_iff.mpr listed
  intro missing
  rw [current?, stack_extend, List.head?_eq_none_iff, List.append_eq_nil_iff,
    List.reverse_eq_nil_iff, List.map_eq_nil_iff, List.range_eq_nil] at missing
  omega

theorem current?_extend_eq_none :
    (s.extend vars).current? var = none ↔ var ∉ vars ∧ s.current? var = none := by
  by_cases listed : var ∈ vars
  · simp [listed, current?_extend_ne_none listed]
  · simp [listed, current?, stack_extend_of_not_mem listed]

/-- What is in scope behind an extension was in scope before or has just been made. -/
theorem mem_stack_extend (inScope : version ∈ (s.extend vars).stack var) :
    version ∈ s.stack var ∨
      version ∈ s.numbered vars ∧ ∃ number, version = versionName var number := by
  rw [stack_extend, List.mem_append, List.mem_reverse, List.mem_map] at inScope
  rcases inScope with ⟨k, bounded, rfl⟩ | older
  · have upper := List.mem_range.mp bounded
    refine .inr ⟨?_, s.counter var + k, rfl⟩
    exact mem_numbered.mpr ⟨var, s.counter var + k, rfl, by omega, by omega⟩
  · exact .inl older

theorem resolve_mem_stack (rewritten : s.resolve var ≠ var) : s.resolve var ∈ s.stack var := by
  rw [resolve] at rewritten ⊢
  cases found : s.current? var with
  | none =>
    rw [found] at rewritten
    exact absurd rfl rewritten
  | some version => exact List.mem_of_head? found

/-- Among different variables the new version of each is its newest one. -/
theorem mem_zip_numbered (distinct : vars.Nodup) :
    (var, version) ∈ vars.zip (s.numbered vars) ↔
      var ∈ vars ∧ (s.extend vars).current? var = some version := by
  induction vars generalizing s with
  | nil => simp
  | cons first rest inductionHypothesis =>
    obtain ⟨fresh, later⟩ := List.nodup_cons.mp distinct
    rw [numbered_cons, List.zip_cons_cons, List.mem_cons, inductionHypothesis later, extend_cons,
      List.mem_cons, Prod.mk.injEq]
    by_cases same : var = first
    · subst same
      simp [fresh, current?, stack_extend_of_not_mem fresh, stack_push, eq_comm]
    · simp [same]

theorem stack_popAll : (s.popAll vars).stack var = (s.stack var).drop (vars.count var) := by
  induction vars generalizing s with
  | nil => rfl
  | cons first rest inductionHypothesis =>
    rw [popAll, List.foldl_cons, ← popAll, inductionHypothesis, stack_pop, List.count_cons]
    by_cases same : first = var
    · subst same
      simp
    · simp [same]

theorem counters_popAll (s : Versions) (vars : List String) :
    (s.popAll vars).counters = s.counters := by
  induction vars generalizing s with
  | nil => rfl
  | cons first rest inductionHypothesis =>
    rw [popAll, List.foldl_cons, ← popAll, inductionHypothesis]
    rfl

end Stacks

/-- No variable is kept with an empty stack. -/
def Proper (s : Versions) : Prop :=
  ∀ var : String, s.inScope[var]? ≠ some []

namespace Proper

variable {s t : Versions} {vars : List String} {var : String}

theorem ofParams (params : List String) : (ofParams params).Proper := by
  intro var empty
  have onStack : (Versions.ofParams params).stack var = [] := by
    rw [stack, Std.ExtTreeMap.getD_eq_getD_getElem?, empty]
    rfl
  have key : var ∈ (Versions.ofParams params).inScope :=
    Std.ExtTreeMap.mem_iff_isSome_getElem?.mpr (by rw [empty]; rfl)
  rw [Versions.ofParams, Std.ExtTreeMap.mem_ofList] at key
  rw [stack_ofParams] at onStack
  simp_all

theorem withStack (proper : s.Proper) {versions : List String} :
    (s.withStack var versions).Proper := by
  intro other
  cases versions with
  | nil =>
    simp only [Versions.withStack, List.isEmpty_nil, ↓reduceIte, Std.ExtTreeMap.getElem?_erase]
    split
    next => simp
    next => exact proper other
  | cons newest older =>
    simp only [Versions.withStack, List.isEmpty_cons, Bool.false_eq_true, ↓reduceIte,
      Std.ExtTreeMap.getElem?_insert]
    split
    next => simp
    next => exact proper other

theorem push (proper : s.Proper) : (s.push var).Proper :=
  proper.withStack

theorem extend (proper : s.Proper) : (s.extend vars).Proper := by
  induction vars generalizing s with
  | nil => exact proper
  | cons first rest inductionHypothesis => exact inductionHypothesis proper.push

theorem popAll (proper : s.Proper) : (s.popAll vars).Proper := by
  induction vars generalizing s with
  | nil => exact proper
  | cons first rest inductionHypothesis => exact inductionHypothesis proper.withStack

theorem getElem?_inScope (proper : s.Proper) :
    s.inScope[var]? = if s.stack var = [] then none else some (s.stack var) := by
  rw [stack, Std.ExtTreeMap.getD_eq_getD_getElem?]
  cases found : s.inScope[var]? with
  | none => rfl
  | some versions =>
    cases versions with
    | nil => exact absurd found (proper var)
    | cons newest older => rfl

theorem inScope_ext (left : s.Proper) (right : t.Proper) (same : ∀ var, s.stack var = t.stack var) :
    s.inScope = t.inScope := by
  apply Std.ExtTreeMap.ext_getElem?
  intro var
  rw [left.getElem?_inScope, right.getElem?_inScope, same]

/-- Dropping what an extension has made brings back the scope in front of it. -/
theorem popAll_extend (proper : s.Proper) (extended : t.inScope = (s.extend vars).inScope) :
    (t.popAll vars).inScope = s.inScope := by
  have properAfter : t.Proper := by
    intro var
    rw [extended]
    exact proper.extend var
  apply properAfter.popAll.inScope_ext proper
  intro var
  have onStack : t.stack var = (s.extend vars).stack var := by rw [stack, extended, ← stack]
  rw [stack_popAll, onStack, stack_extend, List.drop_left']
  simp

end Proper

section Instructions

variable {s : Versions}

theorem pushAll_eq (vars : List String) :
    s.pushAll vars = (vars.zip (s.numbered vars), s.extend vars) := by
  induction vars generalizing s with
  | nil => rfl
  | cons first rest inductionHypothesis =>
    rw [pushAll, inductionHypothesis]
    rfl

/-- Only the destination and the arguments of an instruction are renamed, and only its
destination gets a new version. -/
theorem renameInstr_eq_mk (i : Instr) :
    s.renameInstr i =
      ({ i with args := i.args.map s.resolve, dest := i.dest.map s.next },
        s.extend i.dest.toList) := by
  rw [renameInstr]
  cases found : i.dest with
  | none => rfl
  | some var => rfl

theorem renameInstr_eq (i : Instr) :
    (s.renameInstr i).1 = { i with args := i.args.map s.resolve, dest := i.dest.map s.next } := by
  rw [renameInstr_eq_mk]

theorem renameInstr_scope (i : Instr) :
    (s.renameInstr i).2 = s.extend i.dest.toList := by
  rw [renameInstr_eq_mk]

theorem renameInstr_dest (i : Instr) :
    (s.renameInstr i).1.dest.toList = s.numbered i.dest.toList := by
  rw [renameInstr_eq]
  cases i.dest with
  | none => rfl
  | some var => rfl

theorem filterMap_dest_cons (i : Instr) (rest : List Instr) :
    (i :: rest).filterMap Instr.dest = i.dest.toList ++ rest.filterMap Instr.dest := by
  rw [List.filterMap_cons]
  cases i.dest with
  | none => rfl
  | some var => rfl

theorem renameInstrs_cons (i : Instr) (rest : List Instr) :
    s.renameInstrs (i :: rest) =
      ((s.renameInstr i).1 :: ((s.renameInstr i).2.renameInstrs rest).1,
        ((s.renameInstr i).2.renameInstrs rest).2) := rfl

theorem renameInstrs_scope (instrs : List Instr) :
    (s.renameInstrs instrs).2 = s.extend (instrs.filterMap Instr.dest) := by
  induction instrs generalizing s with
  | nil => rfl
  | cons i rest inductionHypothesis =>
    rw [filterMap_dest_cons, extend_append, renameInstrs_cons]
    simp only [inductionHypothesis, renameInstr_scope]

theorem renameInstrs_dests (instrs : List Instr) :
    (s.renameInstrs instrs).1.filterMap Instr.dest =
      s.numbered (instrs.filterMap Instr.dest) := by
  induction instrs generalizing s with
  | nil => rfl
  | cons i rest inductionHypothesis =>
    rw [filterMap_dest_cons, numbered_append, renameInstrs_cons]
    simp only [filterMap_dest_cons, inductionHypothesis, renameInstr_scope, renameInstr_dest]

/-- An instruction is renamed in the scope that the instructions before it have left. -/
theorem getElem?_renameInstrs (instrs : List Instr) (position : Nat) :
    (s.renameInstrs instrs).1[position]? =
      instrs[position]?.map fun i =>
        ((s.extend ((instrs.take position).filterMap Instr.dest)).renameInstr i).1 := by
  induction instrs generalizing s position with
  | nil => rfl
  | cons i rest inductionHypothesis =>
    cases position with
    | zero => rfl
    | succ position =>
      rw [List.take_succ_cons, filterMap_dest_cons, extend_append, renameInstrs_cons]
      simp only [List.getElem?_cons_succ, inductionHypothesis, renameInstr_scope]

/-- What comes later does not bear on the instructions before it. -/
theorem take_renameInstrs (instrs : List Instr) (count : Nat) :
    (s.renameInstrs instrs).1.take count = (s.renameInstrs (instrs.take count)).1 := by
  induction instrs generalizing s count with
  | nil => simp [renameInstrs]
  | cons i rest inductionHypothesis =>
    cases count with
    | zero => rfl
    | succ count =>
      rw [List.take_succ_cons, renameInstrs_cons, renameInstrs_cons]
      simp only [List.take_succ_cons, inductionHypothesis]

theorem map_targets_renameInstrs (instrs : List Instr) :
    (s.renameInstrs instrs).1.map Instr.targets = instrs.map Instr.targets := by
  induction instrs generalizing s with
  | nil => rfl
  | cons i rest inductionHypothesis =>
    have same : (s.renameInstr i).1.targets = i.targets := by
      rw [renameInstr_eq]
      rfl
    rw [renameInstrs_cons]
    simp only [List.map_cons, inductionHypothesis, same]

theorem map_dest_isSome_renameInstrs (instrs : List Instr) :
    (s.renameInstrs instrs).1.map (fun i => i.dest.isSome) =
      instrs.map fun i => i.dest.isSome := by
  induction instrs generalizing s with
  | nil => rfl
  | cons i rest inductionHypothesis =>
    rw [renameInstrs_cons]
    simp only [List.map_cons, inductionHypothesis, renameInstr_eq, Option.isSome_map]

theorem length_renameInstrs (instrs : List Instr) :
    (s.renameInstrs instrs).1.length = instrs.length := by
  induction instrs generalizing s with
  | nil => rfl
  | cons i rest inductionHypothesis =>
    rw [renameInstrs_cons]
    simp only [List.length_cons, inductionHypothesis]

end Instructions

end SsaForm.Versions
