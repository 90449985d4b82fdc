import SsaForm.Proofs.Conversion.Frame
import SsaForm.Proofs.Conversion.Policies
import SsaForm.Proofs.FlowGraph.Labels

/-!
# Which faults are reported

The walk of a conversion looks up the nodes of the dominator tree by name, and all of them are
blocks. So a graph whose edges lead somewhere is converted, or the conversion is refused for
an unassigned variable by settings that ask for it. By default the functions of a program are
refused for their labels only, and the program is refused for the first of them.
-/

namespace SsaForm

theorem mapM_cons_eq_error {α β ε : Type} {run : α → Except ε β} {first : α} {rest : List α}
    {fault : ε} :
    (first :: rest).mapM run = .error fault ↔
      run first = .error fault ∨
        (∃ result, run first = .ok result) ∧ rest.mapM run = .error fault := by
  rw [List.mapM_cons]
  cases run first with
  | error other => simp [bind, Except.bind]
  | ok result => cases rest.mapM run <;> simp [bind, Except.bind, pure, Except.pure]

/-- A list fails with its first member that fails. -/
theorem mapM_eq_error {α β ε : Type} {run : α → Except ε β} {items : List α} {fault : ε} :
    items.mapM run = .error fault ↔
      ∃ before item following, items = before ++ item :: following ∧
        (∀ earlier ∈ before, ∃ result, run earlier = .ok result) ∧ run item = .error fault := by
  induction items with
  | nil => simp [pure, Except.pure]
  | cons first rest inductionHypothesis =>
    rw [mapM_cons_eq_error, inductionHypothesis]
    constructor
    · rintro (failed | ⟨succeeded, before, item, following, rfl, others, failed⟩)
      · exact ⟨[], first, rest, rfl, by simp, failed⟩
      · exact ⟨first :: before, item, following, rfl,
          List.forall_mem_cons.mpr ⟨succeeded, others⟩, failed⟩
    · rintro ⟨_ | ⟨earlier, before⟩, item, following, whole, succeed, failed⟩
      · cases whole
        exact .inl failed
      · cases whole
        obtain ⟨succeeded, others⟩ := List.forall_mem_cons.mp succeed
        exact .inr ⟨succeeded, before, item, following, rfl, others, failed⟩

namespace FlowGraph

variable {f : Function} {g : FlowGraph}

/-- A conversion succeeds, is refused as its settings ask for, or meets a dangling edge. -/
theorem WellFormed.toSsa_cases (wellFormed : g.WellFormed) (config : Config) :
    (∃ converted, g.toSsa config = .ok converted) ∨
      (config.unassigned = .refuse ∧
        ∃ var block, g.toSsa config = .error (.unassigned var block)) ∨
      ∃ block target, g.dangling? = some (block, target) ∧
        g.toSsa config = .error (.danglingEdge block target) := by
  cases root : g.entry? with
  | none => exact .inl ⟨g, toSsa_of_no_entry root⟩
  | some entry =>
    cases dangling : g.dangling? with
    | some pair =>
      refine .inr (.inr ⟨pair.1, pair.2, rfl, ?_⟩)
      simp only [toSsa, convert, root, wellFormed.indexed.edges_of_dangling dangling]
    | none =>
      have rooted : g.Rooted entry := { wellFormed with root, resolved := dangling }
      cases outcome : (g.convert config).fault? with
      | none => exact .inl ⟨_, toSsa_eq_ok.mpr ⟨outcome, rfl⟩⟩
      | some fault =>
        refine .inr (.inl ⟨?_, ?_⟩)
        · cases policy : config.unassigned with
          | refuse => rfl
          | placeholder => cases outcome.symm.trans (rooted.convert_succeeds policy)
        · obtain ⟨_, last, _, var, rfl, _⟩ := rooted.stops outcome
          exact ⟨var, last.name, by rw [toSsa, outcome]⟩

theorem WellFormed.toSsa_of_resolved (wellFormed : g.WellFormed) (resolved : g.dangling? = none)
    (config : Config) :
    (∃ converted, g.toSsa config = .ok converted) ∨
      config.unassigned = .refuse ∧
        ∃ var block, g.toSsa config = .error (.unassigned var block) := by
  rcases wellFormed.toSsa_cases config with succeeded | refused | ⟨block, target, dangling, _⟩
  · exact .inl succeeded
  · exact .inr refused
  · cases resolved.symm.trans dangling

/-- A function is refused for a repeated or an unknown label. -/
theorem ofFunction_eq_error {checkLabels : Bool} {fault : Fault}
    (failed : ofFunction f checkLabels = .error fault) :
    (∃ name, fault = .repeatedLabel name) ∨ ∃ block target, fault = .unknownLabel block target := by
  cases repeated : firstRepeat? f.labels with
  | some name =>
    have refused : ofFunction f checkLabels = _ :=
      ofFunction_eq_repeated.mpr (firstRepeat?_labels.mp repeated)
    cases refused.symm.trans failed
    exact .inl ⟨name, rfl⟩
  | none =>
    obtain ⟨g, built⟩ := exists_ofFunction (firstRepeat?_eq_none.mp repeated)
    cases checkLabels with
    | false => cases built.symm.trans failed
    | true =>
      obtain ⟨block, target, _, rfl⟩ := (checked_eq_error built).mp failed
      exact .inr ⟨block, target, rfl⟩

end FlowGraph

open FlowGraph

/-- By default nothing but the construction of its graph keeps a function from conversion. -/
theorem Function.toSsa_eq_error {f : Function} {fault : Fault} :
    f.toSsa {} = .error fault ↔ ofFunction f true = .error fault := by
  cases built : ofFunction f true with
  | error other =>
    have failed : f.toSsa {} = .error other := by
      rw [toSsa, show ofFunction f ({} : Config).checkLabels = _ from built]
      rfl
    rw [failed]
    simp
  | ok g =>
    have resolved := resolved_of_checked built rfl
    rcases (wellFormed_ofFunction built).toSsa_of_resolved resolved {} with ⟨converted, succeeded⟩ |
      ⟨strict, _⟩
    · rw [toSsa_of_built (show ofFunction f ({} : Config).checkLabels = _ from built), succeeded]
      simp [Except.map]
    · cases strict

theorem Program.toSsa_eq_error {p : Program} {config : Config} {fault : Fault} :
    p.toSsa config = .error fault ↔
      ∃ before f following, p.functions = before ++ f :: following ∧
        (∀ earlier ∈ before, ∃ result, earlier.toSsa config = .ok result) ∧
        f.toSsa config = .error fault := by
  rw [← mapM_eq_error, toSsa]
  cases p.functions.mapM fun f => f.toSsa config <;> simp [bind, Except.bind, pure, Except.pure]

/-- A conversion never reports a fault of its own making. A graph whose edges can be collected is
converted if a placeholder stands in for unassigned variables; if these are refused, it is
converted or an unassigned variable is reported. Whatever the edges, every node of the dominator
tree is found among the blocks. By default a program is refused exactly if one of its functions
is, with the fault of the first of them, and this is a repeated or an unknown label. -/
theorem conversion_faults :
    (∀ (f : Function) (checkLabels : Bool) (g : FlowGraph) (config : Config),
      ofFunction f checkLabels = .ok g →
        (∀ edges, g.edges = .ok edges →
          (config.unassigned = .placeholder → ∃ converted, g.toSsa config = .ok converted) ∧
          (config.unassigned = .refuse → (∃ converted, g.toSsa config = .ok converted) ∨
            ∃ var block, g.toSsa config = .error (.unassigned var block))) ∧
        ∀ name, g.toSsa config ≠ .error (.strayTreeNode name)) ∧
    ∀ (p : Program) (fault : Fault), p.toSsa {} = .error fault ↔
      ((∃ name, fault = .repeatedLabel name) ∨ ∃ block target, fault = .unknownLabel block target) ∧
      ∃ before f following, p.functions = before ++ f :: following ∧
        (∀ earlier ∈ before, ∃ result, earlier.toSsa {} = .ok result) ∧
        f.toSsa {} = .error fault ∧ ofFunction f true = .error fault := by
  refine ⟨?_, ?_⟩
  · intro f checkLabels g config built
    have wellFormed := wellFormed_ofFunction built
    refine ⟨?_, ?_⟩
    · intro edges found
      rcases wellFormed.toSsa_of_resolved (wellFormed.edges_eq_ok found).1 config with
        succeeded | ⟨strict, refused⟩
      · exact ⟨fun _ => succeeded, fun _ => .inl succeeded⟩
      · exact ⟨fun lenient => (by cases strict.symm.trans lenient), fun _ => .inr refused⟩
    · intro name failed
      rcases wellFormed.toSsa_cases config with ⟨_, other⟩ | ⟨_, _, _, other⟩ | ⟨_, _, _, other⟩
      · cases other.symm.trans failed
      · cases other.symm.trans failed
      · cases other.symm.trans failed
  · intro p fault
    rw [Program.toSsa_eq_error]
    constructor
    · rintro ⟨before, f, following, whole, succeed, failed⟩
      have refused := Function.toSsa_eq_error.mp failed
      exact ⟨ofFunction_eq_error refused, before, f, following, whole, succeed, failed, refused⟩
    · rintro ⟨_, before, f, following, whole, succeed, failed, _⟩
      exact ⟨before, f, following, whole, succeed, failed⟩

/-- Strict settings refuse the first function, by default it converts and the second is refused
for its labels. -/
theorem conversion_faults_stumbling :
    (∃ g edges, ofFunction stumbling true = .ok g ∧ g.edges = .ok edges ∧
      (∃ converted, g.toSsa {} = .ok converted) ∧
      (∀ converted, g.toSsa .strict ≠ .ok converted) ∧
      ∃ var block, g.toSsa .strict = .error (.unassigned var block)) ∧
    Program.toSsa ⟨[stumbling, straying, completed]⟩ {} = .error (.unknownLabel "bb2" "bb1") := by
  have facts : (ofFunction stumbling true).toOption.any (fun g =>
      g.edges.toOption.any fun _ => (g.convert .strict).fault?.isSome) = true := by decide +kernel
  have first : (stumbling.toSsa {}).toOption.any (fun _ => true) = true := by decide +kernel
  have refused : ofFunction straying true = .error (.unknownLabel "bb2" "bb1") := by decide +kernel
  have failed : straying.toSsa {} = .error (.unknownLabel "bb2" "bb1") := by decide +kernel
  obtain ⟨ofGraph, ofProgram⟩ := conversion_faults
  refine ⟨?_, ?_⟩
  · obtain ⟨g, built, collected⟩ := exists_ok_of_any facts
    obtain ⟨edges, found, stopped⟩ := exists_ok_of_any collected
    have unconverted : ∀ converted, g.toSsa .strict ≠ .ok converted := by
      intro converted succeeded
      rw [(toSsa_eq_ok.mp succeeded).1] at stopped
      cases stopped
    have lenient := (ofGraph stumbling true g {} built).1 edges found
    have strict := (ofGraph stumbling true g .strict built).1 edges found
    refine ⟨g, edges, built, found, lenient.1 rfl, unconverted, ?_⟩
    refine (strict.2 rfl).resolve_left ?_
    rintro ⟨converted, succeeded⟩
    exact unconverted converted succeeded
  · obtain ⟨result, succeeded, _⟩ := exists_ok_of_any first
    apply (ofProgram _ _).mpr
    refine ⟨.inr ⟨_, _, rfl⟩, [stumbling], straying, [completed], rfl, ?_, failed, refused⟩
    exact List.forall_mem_singleton.mpr ⟨result, succeeded⟩

end SsaForm
