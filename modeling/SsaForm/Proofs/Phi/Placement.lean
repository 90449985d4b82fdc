import SsaForm.Phi.Placement
import SsaForm.Proofs.Relation.Path

/-!
# Placement follows the frontiers

The search keeps three things: what is placed has been led to, what waits is a site or is
placed, and a block that no longer waits has its whole frontier placed. When nothing waits,
the placed blocks are therefore those that one or more frontier steps lead to from a site.
Every round looks at one waiting block, and a block comes to wait once as a site and once when
it is placed, so the number of rounds is known in advance.
-/

namespace SsaForm.Phi

/-- One or more frontier steps lead to the block from a site. -/
def LedTo (frontiers : Relation String) (sites : KeySet String) (block : String) : Prop :=
  ∃ site ∈ sites, ∃ first ∈ frontiers.image site, frontiers.Reaches first block

theorem LedTo.step {frontiers : Relation String} {sites : KeySet String} {block next : String}
    (led : LedTo frontiers sites block) (related : next ∈ frontiers.image block) :
    LedTo frontiers sites next := by
  obtain ⟨site, isSite, first, onward, reached⟩ := led
  exact ⟨site, isSite, first, onward, reached.step related⟩

/-- How far the search from given sites has come. -/
structure Spreading (frontiers : Relation String) (sites placed : KeySet String)
    (waiting : List String) : Prop where
  led : ∀ k ∈ placed, LedTo frontiers sites k
  known : ∀ k ∈ waiting, k ∈ sites ∨ k ∈ placed
  covered : ∀ k, k ∈ sites ∨ k ∈ placed →
    k ∈ waiting ∨ ∀ next ∈ frontiers.image k, next ∈ placed

namespace Spreading

variable {frontiers : Relation String} {sites placed : KeySet String}

theorem start (frontiers : Relation String) (sites : KeySet String) :
    Spreading frontiers sites ∅ sites.toList.reverse := by
  have waits : ∀ k, k ∈ sites.toList.reverse ↔ k ∈ sites := fun k =>
    List.mem_reverse.trans Std.ExtTreeSet.mem_toList
  constructor
  · exact fun k member => absurd member Std.ExtTreeSet.not_mem_empty
  · exact fun k member => .inl ((waits k).mp member)
  · rintro k (isSite | member)
    · exact .inl ((waits k).mpr isSite)
    · exact absurd member Std.ExtTreeSet.not_mem_empty

/-- One round of the search. -/
theorem step {block : String} {waiting : List String}
    (spreading : Spreading frontiers sites placed (block :: waiting)) :
    Spreading frontiers sites (placed ∪ (frontiers.image block \ placed))
      ((frontiers.image block \ placed).toList.reverse ++ waiting) := by
  have grown : ∀ k, k ∈ placed ∪ (frontiers.image block \ placed) ↔
      k ∈ placed ∨ k ∈ frontiers.image block := by
    intro k
    rw [Std.ExtTreeSet.mem_union_iff, Std.ExtTreeSet.mem_diff_iff]
    grind
  have waits : ∀ k, k ∈ (frontiers.image block \ placed).toList.reverse ++ waiting ↔
      (k ∈ frontiers.image block ∧ k ∉ placed) ∨ k ∈ waiting := by
    intro k
    rw [List.mem_append, List.mem_reverse, Std.ExtTreeSet.mem_toList,
      Std.ExtTreeSet.mem_diff_iff]
  have ledFrom : ∀ next ∈ frontiers.image block, LedTo frontiers sites next := by
    intro next related
    rcases spreading.known block List.mem_cons_self with isSite | member
    · exact ⟨block, isSite, next, related, .refl frontiers next⟩
    · exact (spreading.led block member).step related
  constructor
  · intro k member
    rcases (grown k).mp member with earlier | related
    · exact spreading.led k earlier
    · exact ledFrom k related
  · intro k member
    rcases (waits k).mp member with ⟨related, _⟩ | later
    · exact .inr ((grown k).mpr (.inr related))
    · apply (spreading.known k (List.mem_cons_of_mem _ later)).imp_right
      exact fun earlier => (grown k).mpr (.inl earlier)
  · intro k isKnown
    by_cases again : k ∈ waiting
    · exact .inl ((waits k).mpr (.inr again))
    by_cases here : k = block
    · subst here
      exact .inr fun next related => (grown next).mpr (.inr related)
    by_cases earlier : k ∈ sites ∨ k ∈ placed
    · -- A block that waits no longer was looked at before this round.
      rcases spreading.covered k earlier with waited | finished
      · exact absurd ((List.mem_cons.mp waited).resolve_left here) again
      · exact .inr fun next related => (grown next).mpr (.inl (finished next related))
    · obtain ⟨notSite, unplaced⟩ := not_or.mp earlier
      have related := ((grown k).mp (isKnown.resolve_left notSite)).resolve_left unplaced
      exact .inl ((waits k).mpr (.inl ⟨related, unplaced⟩))

/-- The whole search, round by round. -/
theorem run {waiting : List String} (spreading : Spreading frontiers sites placed waiting) :
    Spreading frontiers sites (spread frontiers placed waiting) [] := by
  fun_induction spread frontiers placed waiting with
  | case1 placed => exact spreading
  | case2 placed block waiting found inductionHypothesis =>
    exact inductionHypothesis spreading.step

/-- When nothing waits, a step from a placed block leads to a placed block. -/
theorem mem_iff_ledTo (finished : Spreading frontiers sites placed []) {block : String} :
    block ∈ placed ↔ LedTo frontiers sites block := by
  have closed : ∀ k, k ∈ sites ∨ k ∈ placed → ∀ next ∈ frontiers.image k, next ∈ placed :=
    fun k isKnown => (finished.covered k isKnown).resolve_left List.not_mem_nil
  constructor
  · exact finished.led block
  · rintro ⟨site, isSite, first, related, visited, path⟩
    induction path with
    | start => exact closed site (.inl isSite) first related
    | step _ onward inductionHypothesis => exact closed _ (.inr inductionHypothesis) _ onward

end Spreading

theorem mem_iteratedFrontier {frontiers : Relation String} {sites : KeySet String}
    {block : String} : block ∈ iteratedFrontier frontiers sites ↔ LedTo frontiers sites block :=
  (Spreading.start frontiers sites).run.mem_iff_ledTo

/-- The search ends after a number of rounds, each of which looks at the frontier of the block
that waits in front. -/
inductive Ends (frontiers : Relation String) :
    KeySet String → List String → Nat → KeySet String → Prop where
  | done {placed : KeySet String} : Ends frontiers placed [] 0 placed
  | round {placed final : KeySet String} {block : String} {waiting : List String} {rounds : Nat}
    (rest : Ends frontiers (placed ∪ (frontiers.image block \ placed))
      ((frontiers.image block \ placed).toList.reverse ++ waiting) rounds final) :
    Ends frontiers placed (block :: waiting) (rounds + 1) final

theorem exists_ends (frontiers : Relation String) (placed : KeySet String)
    (waiting : List String) :
    ∃ rounds, Ends frontiers placed waiting rounds (spread frontiers placed waiting) ∧
      rounds + placed.size = waiting.length + (spread frontiers placed waiting).size := by
  fun_induction spread frontiers placed waiting with
  | case1 placed => exact ⟨0, .done, rfl⟩
  | case2 placed block waiting found inductionHypothesis =>
    obtain ⟨rounds, rest, count⟩ := inductionHypothesis
    have grown : (placed ∪ found).size = placed.size + found.size := by
      apply Std.ExtTreeSet.size_union_of_not_mem
      exact fun k member again => (Std.ExtTreeSet.mem_diff_iff.mp again).2 member
    refine ⟨rounds + 1, .round rest, ?_⟩
    simp only [List.length_append, List.length_reverse, List.length_cons,
      Std.ExtTreeSet.length_toList] at count ⊢
    omega

/-- The search looks once at every site and once at every block that it places. -/
theorem ends_iteratedFrontier (frontiers : Relation String) (sites : KeySet String) :
    Ends frontiers ∅ sites.toList.reverse (sites.size + (iteratedFrontier frontiers sites).size)
      (iteratedFrontier frontiers sites) := by
  obtain ⟨rounds, ends, count⟩ := exists_ends frontiers ∅ sites.toList.reverse
  rw [List.length_reverse, Std.ExtTreeSet.length_toList, Std.ExtTreeSet.size_empty] at count
  rw [iteratedFrontier, ← count]
  exact ends

section Place

variable {definitions frontiers : Relation String} {var block : String}

theorem mem_placements :
    block ∈ (placements definitions frontiers).image var ↔
      ∃ site ∈ definitions.image var, ∃ first ∈ frontiers.image site,
        frontiers.Reaches first block := by
  rw [placements, Relation.image_tabulate]
  split
  next => exact mem_iteratedFrontier
  next missing =>
    refine iff_of_false Std.ExtTreeSet.not_mem_empty ?_
    intro reached
    obtain ⟨site, assigns, _⟩ := reached
    exact missing (Relation.mem_domain.mpr (Relation.mem_of_mem_image assigns))

/-- A block merges a variable if one or more frontier steps lead to it from a block that
assigns the variable. -/
theorem mem_place :
    var ∈ (place definitions frontiers).image block ↔
      ∃ site ∈ definitions.image var, ∃ first ∈ frontiers.image site,
        frontiers.Reaches first block := by
  rw [place, Relation.image_tabulate]
  split
  next => rw [Relation.mem_image_converse, mem_placements]
  next missing =>
    refine iff_of_false Std.ExtTreeSet.not_mem_empty ?_
    intro reached
    apply missing
    apply Std.ExtTreeSet.mem_union_iff.mpr
    exact .inr (Relation.mem_range.mpr ⟨var, mem_placements.mpr reached⟩)

theorem mem_place_of_site {next : String} (assigns : block ∈ definitions.image var)
    (related : next ∈ frontiers.image block) :
    var ∈ (place definitions frontiers).image next :=
  mem_place.mpr ⟨block, assigns, next, related, .refl frontiers next⟩

theorem mem_place_of_merge {next : String}
    (merges : var ∈ (place definitions frontiers).image block)
    (related : next ∈ frontiers.image block) :
    var ∈ (place definitions frontiers).image next := by
  obtain ⟨site, assigns, first, onward, reached⟩ := mem_place.mp merges
  exact mem_place.mpr ⟨site, assigns, first, onward, reached.step related⟩

theorem range_of_mem_place (merges : var ∈ (place definitions frontiers).image block) :
    ∃ before, block ∈ frontiers.image before := by
  obtain ⟨site, _, first, related, visited, path⟩ := mem_place.mp merges
  cases path with
  | start => exact ⟨site, related⟩
  | step _ onward => exact ⟨_, onward⟩

theorem mem_place_keys :
    block ∈ place definitions frontiers ↔
      block ∈ frontiers ∨ ∃ var, var ∈ (place definitions frontiers).image block := by
  have keys : block ∈ place definitions frontiers ↔
      block ∈ frontiers.domain ∪ (placements definitions frontiers).range := KeySet.mem_tabulate
  have placed : block ∈ (placements definitions frontiers).range ↔
      ∃ var, var ∈ (place definitions frontiers).image block := by
    rw [Relation.mem_range]
    exact exists_congr fun var => mem_placements.trans mem_place.symm
  rw [keys, Std.ExtTreeSet.mem_union_iff, Relation.mem_domain, placed]

end Place

/-- Placement iterates the frontiers, whatever the two relations are. The search for the blocks
that merge a variable ends after one round for every block that assigns the variable and one
for every block that it places. A variable is merged in the blocks that one or more frontier
steps lead to from a block that assigns it. And the blocks that are listed are those with a
frontier and those that merge a variable. -/
theorem place_iterates_frontiers (definitions frontiers : Relation String) :
    (∀ var, ∃ placed,
      Ends frontiers ∅ (definitions.image var).toList.reverse
        ((definitions.image var).size + placed.size) placed ∧
      ∀ block, var ∈ (place definitions frontiers).image block ↔ block ∈ placed) ∧
    (∀ var block, var ∈ (place definitions frontiers).image block ↔
      ∃ site ∈ definitions.image var, ∃ first ∈ frontiers.image site,
        frontiers.Reaches first block) ∧
    ∀ block, block ∈ place definitions frontiers ↔
      block ∈ frontiers ∨ ∃ var, var ∈ (place definitions frontiers).image block := by
  refine ⟨?_, fun var block => mem_place, fun block => mem_place_keys⟩
  intro var
  refine ⟨_, ends_iteratedFrontier frontiers (definitions.image var), ?_⟩
  exact fun block => mem_place.trans mem_iteratedFrontier.symm

end SsaForm.Phi
