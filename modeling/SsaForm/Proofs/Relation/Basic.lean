import SsaForm.Relation.Basic

/-!
# Comparing relations

A relation is determined by its keys and by what each node is related to. One relation is
part of another if it has no pair that the other lacks.
-/

namespace SsaForm

/-- A table made from pairs with different keys holds these pairs. -/
theorem Table.getElem?_ofList_iff {κ β : Type} [Ord κ] [Std.TransOrd κ] [Std.LawfulEqOrd κ]
    {pairs : List (κ × β)}
    (distinct : pairs.Pairwise fun first second => ¬ compare first.1 second.1 = .eq)
    {k : κ} {value : β} :
    (.ofList pairs : Table κ β)[k]? = some value ↔ (k, value) ∈ pairs := by
  constructor
  · intro found
    have key : k ∈ (.ofList pairs : Table κ β) :=
      Std.ExtTreeMap.mem_iff_isSome_getElem?.mpr (by rw [found]; rfl)
    classical
    rw [Std.ExtTreeMap.mem_ofList, List.contains_iff_mem, List.mem_map] at key
    obtain ⟨other, member, rfl⟩ := key
    have stored := Std.ExtTreeMap.getElem?_ofList_of_mem Std.ReflCmp.compare_self distinct member
    rw [found, Option.some.injEq] at stored
    rw [stored]
    exact member
  · exact Std.ExtTreeMap.getElem?_ofList_of_mem Std.ReflCmp.compare_self distinct

theorem Table.insert_eq_self {κ β : Type} [Ord κ] [Std.TransOrd κ] [Std.LawfulEqOrd κ]
    {table : Table κ β} {k : κ} {value : β} (found : table[k]? = some value) :
    table.insert k value = table := by
  apply Std.ExtTreeMap.ext_getElem?
  intro other
  rw [Std.ExtTreeMap.getElem?_insert]
  split
  next same => rw [← Std.LawfulEqOrd.eq_of_compare same, found]
  next => rfl

namespace KeySet

variable {κ : Type} [Ord κ] [Std.TransOrd κ] [Std.LawfulEqOrd κ]

theorem mem_erase_of_ne {s : KeySet κ} {k removed : κ} (membership : k ∈ s)
    (distinct : k ≠ removed) : k ∈ s.erase removed := by
  refine Std.ExtTreeSet.mem_erase.mpr ⟨?_, membership⟩
  intro equal
  exact distinct (Std.LawfulEqOrd.eq_of_compare equal).symm

theorem size_lt_of_subset {s t : KeySet κ} {k : κ} (subset : ∀ k, k ∈ s → k ∈ t)
    (membership : k ∈ t) (missing : k ∉ s) : s.size < t.size := by
  have smaller : s.size ≤ (t.erase k).size := by
    apply size_le_of_subset
    intro other found
    apply mem_erase_of_ne (subset other found)
    intro same
    exact missing (same ▸ found)
  exact Nat.lt_of_le_of_lt smaller (size_erase_lt membership)

omit [Std.LawfulEqOrd κ] in
theorem size_pos_of_mem {s : KeySet κ} {k : κ} (membership : k ∈ s) : 0 < s.size :=
  Nat.lt_of_le_of_lt (Nat.zero_le _) (size_erase_lt membership)

theorem nodup_toList (s : KeySet κ) : s.toList.Nodup := by
  refine Std.ExtTreeSet.distinct_toList.imp ?_
  intro first second apart equal
  exact apart (Std.LawfulEqOrd.compare_eq_iff_eq.mpr equal)

end KeySet

namespace Relation

variable {κ : Type} [Ord κ] [Std.TransOrd κ]

/-- The relation in which listed keys are related to listed nodes. -/
def relating (pairs : List (κ × List κ)) : Relation κ :=
  .ofList (pairs.map fun pair => (pair.1, Std.ExtTreeSet.ofList pair.2))

theorem getElem?_eq_some_image {r : Relation κ} {node : κ} (key : node ∈ r) :
    r[node]? = some (r.image node) := by
  rw [image, Std.ExtTreeMap.getElem?_eq_some_getD key]

theorem image_eq_of_getElem? {r : Relation κ} {node : κ} {related : KeySet κ}
    (found : r[node]? = some related) : r.image node = related := by
  rw [image, Std.ExtTreeMap.getD_eq_getD_getElem?, found, Option.getD_some]

theorem image_insert_self {r : Relation κ} {node : κ} {related : KeySet κ} :
    image (r.insert node related) node = related := by
  simp [image]

theorem size_domain_le {r : Relation κ} : r.domain.size ≤ r.size := by
  rw [domain, ← Std.ExtTreeMap.length_keys]
  exact Std.ExtTreeSet.size_ofList_le

/-- Every pair of `r` is a pair of `s`. -/
def PartOf (r s : Relation κ) : Prop :=
  ∀ k d, d ∈ r.image k → d ∈ s.image k

namespace PartOf

theorem refl (r : Relation κ) : r.PartOf r :=
  fun _ _ related => related

theorem trans {r s t : Relation κ} (first : r.PartOf s) (second : s.PartOf t) : r.PartOf t :=
  fun k d related => second k d (first k d related)

end PartOf

variable [Std.LawfulEqOrd κ]

theorem ext_image {r s : Relation κ} (keys : ∀ k, k ∈ r ↔ k ∈ s)
    (images : ∀ k d, d ∈ r.image k ↔ d ∈ s.image k) : r = s := by
  apply Std.ExtTreeMap.ext_getElem?
  intro k
  by_cases key : k ∈ r
  · rw [getElem?_eq_some_image key, getElem?_eq_some_image ((keys k).mp key),
      Std.ExtTreeSet.ext_mem (images k)]
  · rw [Std.ExtTreeMap.getElem?_eq_none key,
      Std.ExtTreeMap.getElem?_eq_none (key ∘ (keys k).mpr)]

theorem mem_insert_of_mem {r : Relation κ} {node k : κ} {related : KeySet κ} (key : node ∈ r) :
    k ∈ r.insert node related ↔ k ∈ r := by
  rw [Std.ExtTreeMap.mem_insert, Std.LawfulEqOrd.compare_eq_iff_eq]
  constructor
  · intro inserted
    rcases inserted with same | found
    · exact same ▸ key
    · exact found
  · exact .inr

theorem image_insert_of_ne {r : Relation κ} {node other : κ} {related : KeySet κ}
    (distinct : other ≠ node) : image (r.insert node related) other = r.image other := by
  simp [image, Std.ExtTreeMap.getD_insert, Ne.symm distinct]

end Relation

end SsaForm
