import SsaForm.Phi.Insertion
import SsaForm.Proofs.Relation.Basic

/-!
# Inserted merges

The merges of a block are kept in a table by variable, and a table made from an ascending
list gives the list back. So the merges are written in the order in which the renaming made
their versions.
-/

namespace SsaForm

section Tables

variable {κ β : Type} [Ord κ] [Std.TransOrd κ] [Std.LawfulEqOrd κ]

theorem mem_toList_ofList {pairs : List (κ × β)}
    (ascending : pairs.Pairwise fun first second => compare first.1 second.1 = .lt)
    {pair : κ × β} : pair ∈ (.ofList pairs : Table κ β).toList ↔ pair ∈ pairs := by
  have distinct : pairs.Pairwise fun first second => ¬ compare first.1 second.1 = .eq := by
    refine ascending.imp ?_
    intro first second less equal
    rw [less] at equal
    cases equal
  rw [Std.ExtTreeMap.mem_toList_iff_getElem?_eq_some, Table.getElem?_ofList_iff distinct]

theorem toList_ofList {pairs : List (κ × β)}
    (ascending : pairs.Pairwise fun first second => compare first.1 second.1 = .lt) :
    (.ofList pairs : Table κ β).toList = pairs := by
  have apart : ∀ {pairs : List (κ × β)},
      pairs.Pairwise (fun first second => compare first.1 second.1 = .lt) → pairs.Nodup := by
    intro pairs ascending
    refine ascending.imp ?_
    intro first second less equal
    have same : compare second.1 second.1 = .eq := Std.ReflCmp.compare_self
    rw [equal, same] at less
    cases less
  have sorted := Std.ExtTreeMap.ordered_keys_toList (t := (.ofList pairs : Table κ β))
  refine List.Perm.eq_of_pairwise ?_ sorted ascending
    ((List.perm_ext_iff_of_nodup (apart sorted) (apart ascending)).mpr
      fun _ => mem_toList_ofList ascending)
  intro first second _ _ less greater
  have swapped : compare first.1 second.1 = (compare second.1 first.1).swap :=
    Std.OrientedCmp.eq_swap
  rw [less, greater] at swapped
  cases swapped

/-- Values listed along the members of a set. -/
theorem toList_ofList_zip (s : KeySet κ) (values : List β) :
    (.ofList (s.toList.zip values) : Table κ β).toList = s.toList.zip values := by
  apply toList_ofList
  have keys : ∀ {keys : List κ} {values : List β}, keys.Pairwise (compare · · = .lt) →
      (keys.zip values).Pairwise fun first second => compare first.1 second.1 = .lt := by
    intro keys values ascending
    induction keys generalizing values with
    | nil => exact .nil
    | cons k rest inductionHypothesis =>
      cases values with
      | nil => exact .nil
      | cons value others =>
        obtain ⟨least, later⟩ := List.pairwise_cons.mp ascending
        refine .cons ?_ (inductionHypothesis later)
        intro pair member
        exact least pair.1 (List.of_mem_zip member).1
  exact keys Std.ExtTreeSet.ordered_toList

end Tables

end SsaForm
