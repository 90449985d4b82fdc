import Std.Data.ExtTreeMap
import Std.Data.ExtTreeSet

/-!
# Finite sets and tables of ordered keys

Keys carry a lawful total order; a set lists its members in ascending order, and two
sets with the same members are equal. Every operation is described by its effect on
membership, and every table by its effect on lookup.
-/

namespace SsaForm

abbrev KeySet (κ : Type) [Ord κ] := Std.ExtTreeSet κ

abbrev Table (κ β : Type) [Ord κ] := Std.ExtTreeMap κ β

namespace KeySet

variable {κ ι : Type} [Ord κ] [Std.TransOrd κ] [Ord ι] [Std.TransOrd ι]

def select (test : κ → Bool) (s : KeySet κ) : KeySet κ :=
  .ofList (s.toList.filter test)

def image (f : κ → ι) (s : KeySet κ) : KeySet ι :=
  .ofList (s.toList.map f)

def flatMap (s : KeySet κ) (f : κ → KeySet ι) : KeySet ι :=
  .ofList (s.toList.flatMap fun k => (f k).toList)

/-- The keys that lie in every listed set; an empty list has no such key. -/
def common : List (KeySet κ) → KeySet κ
  | [] => ∅
  | s :: rest => s.select fun k => rest.all fun t => decide (k ∈ t)

/-- The table that assigns `f k` to every member `k`. -/
def tabulate {β : Type} (s : KeySet κ) (f : κ → β) : Table κ β :=
  .ofList (s.toList.map fun k => (k, f k))

theorem size_erase_lt {s : KeySet κ} {k : κ} (membership : k ∈ s) :
    (s.erase k).size < s.size := by
  have positive : s.size ≠ 0 := fun empty =>
    Std.ExtTreeSet.ne_empty_of_mem membership (Std.ExtTreeSet.eq_empty_iff_size_eq_zero.mpr empty)
  rw [Std.ExtTreeSet.size_erase, if_pos (Std.ExtTreeSet.contains_iff_mem.mpr membership)]
  omega

theorem size_le_of_subset {s t : KeySet κ} (subset : ∀ k, k ∈ s → k ∈ t) : s.size ≤ t.size := by
  rw [← Std.ExtTreeSet.size_inter_eq_size_left subset]
  exact Std.ExtTreeSet.size_inter_le_size_right

section Membership

variable [Std.LawfulEqOrd κ] [Std.LawfulEqOrd ι]

theorem mem_ofList {k : κ} {keys : List κ} : k ∈ (.ofList keys : KeySet κ) ↔ k ∈ keys := by
  classical
  rw [Std.ExtTreeSet.mem_ofList, List.contains_iff_mem]

@[simp] theorem mem_select {test : κ → Bool} {s : KeySet κ} {k : κ} :
    k ∈ s.select test ↔ k ∈ s ∧ test k = true := by
  simp only [select, mem_ofList, List.mem_filter, Std.ExtTreeSet.mem_toList]

@[simp] theorem mem_image {f : κ → ι} {s : KeySet κ} {i : ι} :
    i ∈ s.image f ↔ ∃ k ∈ s, f k = i := by
  simp only [image, mem_ofList, List.mem_map, Std.ExtTreeSet.mem_toList]

@[simp] theorem mem_flatMap {s : KeySet κ} {f : κ → KeySet ι} {i : ι} :
    i ∈ s.flatMap f ↔ ∃ k ∈ s, i ∈ f k := by
  simp only [flatMap, mem_ofList, List.mem_flatMap, Std.ExtTreeSet.mem_toList]

theorem mem_common {sets : List (KeySet κ)} {k : κ} :
    k ∈ common sets ↔ sets ≠ [] ∧ ∀ s ∈ sets, k ∈ s := by
  cases sets with
  | nil => simp [common]
  | cons s rest => simp [common]

theorem getElem?_tabulate {β : Type} {s : KeySet κ} {f : κ → β} {k : κ} :
    (s.tabulate f)[k]? = if k ∈ s then some (f k) else none := by
  classical
  split
  next membership =>
    apply Std.ExtTreeMap.getElem?_ofList_of_mem (k := k) Std.ReflCmp.compare_self
    · rw [List.pairwise_map]
      exact Std.ExtTreeSet.distinct_toList
    · exact List.mem_map.mpr ⟨k, Std.ExtTreeSet.mem_toList.mpr membership, rfl⟩
  next missing =>
    apply Std.ExtTreeMap.getElem?_ofList_of_contains_eq_false
    simpa [Function.comp_def] using missing

@[simp] theorem mem_tabulate {β : Type} {s : KeySet κ} {f : κ → β} {k : κ} :
    k ∈ s.tabulate f ↔ k ∈ s := by
  classical
  simp [tabulate, Std.ExtTreeMap.mem_ofList]

end Membership

end KeySet

end SsaForm
