import Mathlib.Data.Set.Insert
import Mathlib.Order.Bounds.Defs
import SsaForm.Proofs.FlowGraph.Completion

/-!
# The numbers of fresh names

A fresh name has the least number that makes it unused, and the search for it tries no more
candidates than there are names in use, and one. So the blocks of the runs that have no label get
the first free numbers, in order: no number is passed over that a label of the body leaves free.
-/

namespace SsaForm

/-- The numbers that make an unused name of a stem. -/
def freeNumbers (stem : String) (used : KeySet String) : Set Nat :=
  {number | 0 < number ∧ stem ++ toString number ∉ used}

/-- A loop over the numbers from `n` on that tries one candidate in each round and ends with the
first one that is not in use, if it comes so far in the rounds that it has. -/
def tryNames (stem : String) (used : KeySet String) : (rounds : Nat) → (n : Nat) → Option String
  | 0, _ => none
  | rounds + 1, n =>
    if stem ++ toString n ∈ used then
      tryNames stem used rounds (n + 1)
    else
      some (stem ++ toString n)

section Search

variable {stem : String} {used : KeySet String}

theorem tryNames_eq {number : Nat} (free : stem ++ toString number ∉ used) (rounds n : Nat)
    (later : n ≤ number)
    (skipped : ∀ earlier, n ≤ earlier → earlier < number → stem ++ toString earlier ∈ used) :
    tryNames stem used rounds n =
      if number < n + rounds then some (stem ++ toString number) else none := by
  induction rounds generalizing n with
  | zero => exact (if_neg (by omega)).symm
  | succ rounds inductionHypothesis =>
    rw [tryNames]
    rcases Nat.eq_or_lt_of_le later with rfl | further
    · rw [if_neg free, if_pos (by omega)]
    · rw [if_pos (skipped n (Nat.le_refl n) further),
        inductionHypothesis (n + 1) further fun earlier lower => skipped earlier (by omega)]
      simp only [Nat.add_assoc, Nat.add_comm 1]

/-- A name that is given is not free any more, and all others stay free. -/
theorem freeNumbers_insert (number : Nat) :
    freeNumbers stem (used.insert (stem ++ toString number)) =
      freeNumbers stem used \ {number} := by
  ext other
  have same : compare (stem ++ toString number) (stem ++ toString other) = .eq ↔
      other = number := by
    rw [Std.LawfulEqOrd.compare_eq_iff_eq, String.append_right_inj, eq_comm]
    exact ⟨toString_nat_injective, congrArg toString⟩
  rw [Set.mem_sdiff, Set.mem_singleton_iff, freeNumbers, freeNumbers, Set.mem_ofPred_eq,
    Set.mem_ofPred_eq, Std.ExtTreeSet.mem_insert, same, not_or, and_assoc]
  exact and_congr_right fun _ => and_comm

end Search

theorem exists_isLeast_freeNumbers (stem : String) (used : KeySet String) :
    ∃ number, freshName stem used = stem ++ toString number ∧
      IsLeast (freeNumbers stem used) number ∧ number ≤ used.size + 1 ∧
      ∀ rounds, tryNames stem used rounds 1 =
        if number ≤ rounds then some (freshName stem used) else none := by
  obtain ⟨number, positive, bounded, result, free, skipped⟩ := freshNameFrom_spec stem 1 used
  rw [← freshName] at result
  refine ⟨number, result, ⟨⟨positive, free⟩, ?_⟩, by omega, ?_⟩
  · rintro other ⟨otherPositive, otherFree⟩
    exact Nat.le_of_not_lt fun smaller => otherFree (skipped other otherPositive smaller)
  · intro rounds
    rw [tryNames_eq free rounds 1 positive skipped, result]
    simp only [Nat.add_comm 1, Nat.lt_succ_iff]

/-- The numbers are the first ones of a set, in ascending order. -/
structure CountsUp (free : Set Nat) (numbers : List Nat) : Prop where
  ascending : numbers.Pairwise (· < ·)
  members : ∀ number ∈ numbers, number ∈ free
  gapless : ∀ number ∈ numbers, ∀ smaller ∈ free, smaller < number → smaller ∈ numbers

theorem CountsUp.nil (free : Set Nat) : CountsUp free [] :=
  ⟨.nil, List.forall_mem_nil _, List.forall_mem_nil _⟩

/-- To count up, take the least number and then count up in what is left. -/
theorem CountsUp.cons {free : Set Nat} {number : Nat} {numbers : List Nat}
    (least : IsLeast free number) (counts : CountsUp (free \ {number}) numbers) :
    CountsUp free (number :: numbers) := by
  obtain ⟨isFree, below⟩ := least
  have above : ∀ later ∈ numbers, number < later := fun later listed =>
    Nat.lt_of_le_of_ne (below (counts.members later listed).1)
      (Ne.symm (counts.members later listed).2)
  refine ⟨List.pairwise_cons.mpr ⟨above, counts.ascending⟩, ?_, ?_⟩
  · exact List.forall_mem_cons.mpr ⟨isFree, fun later listed => (counts.members later listed).1⟩
  · intro later listed smaller smallerFree less
    by_cases same : smaller = number
    · exact same ▸ List.mem_cons_self
    · rcases List.mem_cons.mp listed with rfl | listed
      · exact absurd (below smallerFree) (Nat.not_le_of_lt less)
      · exact List.mem_cons_of_mem _ (counts.gapless later listed smaller ⟨smallerFree, same⟩ less)

namespace FlowGraph

/-- The names that the blocks of the runs without a label get, in layout order. -/
def givenNames (used : KeySet String) (runs : List Run) : List String :=
  ((runs.zip (nameRuns used runs)).filter fun named => named.1.label.isNone).map fun named =>
    named.2.name

/-- The runs without a label get the first free numbers, one for each. -/
theorem givenNames_countsUp (used : KeySet String) (runs : List Run) :
    ∃ numbers : List Nat, givenNames used runs = numbers.map (fun n => "bb" ++ toString n) ∧
      numbers.length = runs.countP (fun run => run.label.isNone) ∧
      CountsUp (freeNumbers "bb" used) numbers := by
  induction runs generalizing used with
  | nil => exact ⟨[], rfl, rfl, .nil _⟩
  | cons run rest inductionHypothesis =>
    obtain ⟨_ | label, instrs⟩ := run
    · -- The number is taken out of the free ones, so those behind it are greater.
      obtain ⟨number, result, least, _⟩ := exists_isLeast_freeNumbers "bb" used
      obtain ⟨numbers, given, counted, counts⟩ :=
        inductionHypothesis (used.insert (freshName "bb" used))
      rw [result, freeNumbers_insert] at counts
      refine ⟨number :: numbers, ?_, ?_, counts.cons least⟩
      · rw [List.map_cons, ← given, ← result]
        rfl
      · rw [List.length_cons, counted, List.countP_cons_of_pos rfl]
    · obtain ⟨numbers, given, counted, counts⟩ := inductionHypothesis used
      refine ⟨numbers, given, ?_, counts⟩
      rw [counted, List.countP_cons_of_neg (by simp)]

theorem names_eq_append {f : Function} {checkLabels : Bool} {g : FlowGraph}
    (built : ofFunction f checkLabels = .ok g) :
    ∃ lead, g.names = lead ++ (namedRuns f).map Block.name := by
  obtain ⟨_, rfl⟩ := ofFunction_eq_ok built
  obtain ⟨front, whole⟩ := exists_front f
  exact ⟨front.map Block.name, by rw [names_closed, whole, List.map_append]⟩

/-- Fresh names are the least ones. Whatever the stem and the names in use are, the search tries
the numbers from 1 on and ends in the round of the least number that is free, at most one round
more than there are names in use. So in every construction the blocks of the runs without a label,
which stand in the graph in this order, get numbers that grow from one to the next: the first ones
that the labels of the body leave free. -/
theorem fresh_names_count_up :
    (∀ (stem : String) (used : KeySet String), ∃ number,
      freshName stem used = stem ++ toString number ∧
      IsLeast {n | 0 < n ∧ stem ++ toString n ∉ used} number ∧ number ≤ used.size + 1 ∧
      ∀ rounds, tryNames stem used rounds 1 =
        if number ≤ rounds then some (freshName stem used) else none) ∧
    ∀ f : Function, ∃ numbers : List Nat,
      givenNames (bodyLabels f.body) (Run.split f.body) =
        numbers.map (fun n => "bb" ++ toString n) ∧
      numbers.length = (Run.split f.body).countP (fun run => run.label.isNone) ∧
      numbers.Pairwise (· < ·) ∧ CountsUp (freeNumbers "bb" (bodyLabels f.body)) numbers ∧
      ∀ checkLabels g, ofFunction f checkLabels = .ok g →
        ∃ lead, g.names = lead ++ (namedRuns f).map Block.name := by
  refine ⟨exists_isLeast_freeNumbers, ?_⟩
  intro f
  obtain ⟨numbers, given, counted, counts⟩ :=
    givenNames_countsUp (bodyLabels f.body) (Run.split f.body)
  exact ⟨numbers, given, counted, counts.ascending, counts, fun _ _ built => names_eq_append built⟩

/-- One label of the body reads like a generated name and is borne, another is only mentioned, so
the three runs without a label get the second, the fourth and the fifth number. -/
theorem fresh_names_count_up_patchwork :
    ∃ g lead, ∃ numbers : List Nat, ofFunction patchwork false = .ok g ∧
      g.names = lead ++ (namedRuns patchwork).map Block.name ∧
      ["bb2", "bb4", "bb5"] = numbers.map (fun n => "bb" ++ toString n) ∧
      numbers.Pairwise (· < ·) ∧
      CountsUp (freeNumbers "bb" (bodyLabels patchwork.body)) numbers := by
  have facts : (ofFunction patchwork false).toOption.any (fun _ =>
      givenNames (bodyLabels patchwork.body) (Run.split patchwork.body) = ["bb2", "bb4", "bb5"]) =
        true := by decide +kernel
  obtain ⟨g, built, facts⟩ := exists_ok_of_any facts
  obtain ⟨numbers, given, _, ascending, counts, inGraph⟩ := fresh_names_count_up.2 patchwork
  obtain ⟨lead, names⟩ := inGraph false g built
  exact ⟨g, lead, numbers, built, names, of_decide_eq_true facts ▸ given, ascending, counts⟩

end FlowGraph

end SsaForm
