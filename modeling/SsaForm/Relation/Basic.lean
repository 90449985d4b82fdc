import SsaForm.KeySet

/-!
# Finite relations

A relation lists, for each of its keys, the set of nodes that the key is related to. A
key with an empty set differs from a missing key, and a node may be related to without
being a key. The algebra below states which keys its results have as well as which
pairs they hold.
-/

namespace SsaForm

/-- A finite relation on ordered nodes, given key by key. -/
abbrev Relation (κ : Type) [Ord κ] := Table κ (KeySet κ)

namespace Relation

variable {κ : Type} [Ord κ] [Std.TransOrd κ]

def domain (r : Relation κ) : KeySet κ :=
  .ofList r.keys

/-- What a node is related to; nothing if it is not a key. -/
def image (r : Relation κ) (node : κ) : KeySet κ :=
  r.getD node ∅

/-- Relates a node to one more, as a new key if it is none yet. -/
def relate (r : Relation κ) (source target : κ) : Relation κ :=
  r.insert source ((r.image source).insert target)

def range (r : Relation κ) : KeySet κ :=
  r.domain.flatMap r.image

/-- Every node the relation mentions, as a key or as a member. -/
def carrier (r : Relation κ) : KeySet κ :=
  r.domain ∪ r.range

/-- The opposite relation, with every mentioned node as a key. -/
def converse (r : Relation κ) : Relation κ :=
  r.carrier.tabulate fun target => r.domain.select fun source => decide (target ∈ r.image source)

/-- One step of `r` followed by one step of `s`, with the keys of `r`. -/
def compose (r s : Relation κ) : Relation κ :=
  r.domain.tabulate fun node => (r.image node).flatMap s.image

/-- The pairs of `r` that are not pairs of `s`, with the keys of `r`. -/
def difference (r s : Relation κ) : Relation κ :=
  r.domain.tabulate fun node => r.image node \ s.image node

def irreflexive (r : Relation κ) : Relation κ :=
  r.domain.tabulate fun node => (r.image node).erase node

/-- The part of a relation whose keys lie in a set; the members are not filtered. -/
def restrict (r : Relation κ) (keys : KeySet κ) : Relation κ :=
  (r.domain ∩ keys).tabulate r.image

section Laws

theorem image_eq_empty {r : Relation κ} {node : κ} (missing : node ∉ r) : r.image node = ∅ :=
  Std.ExtTreeMap.getD_eq_fallback missing

theorem mem_of_mem_image {r : Relation κ} {source target : κ} (related : target ∈ r.image source) :
    source ∈ r := by
  rcases Classical.em (source ∈ r) with found | missing
  · exact found
  · rw [image_eq_empty missing] at related
    exact absurd related Std.ExtTreeSet.not_mem_empty

variable [Std.LawfulEqOrd κ]

@[simp] theorem mem_domain {r : Relation κ} {node : κ} : node ∈ r.domain ↔ node ∈ r := by
  rw [domain, KeySet.mem_ofList, Std.ExtTreeMap.mem_keys]

@[simp] theorem mem_range {r : Relation κ} {target : κ} :
    target ∈ r.range ↔ ∃ source, target ∈ r.image source := by
  simp only [range, KeySet.mem_flatMap, mem_domain]
  constructor
  · rintro ⟨source, _, related⟩
    exact ⟨source, related⟩
  · rintro ⟨source, related⟩
    exact ⟨source, mem_of_mem_image related, related⟩

@[simp] theorem mem_relate {r : Relation κ} {source target node : κ} :
    node ∈ r.relate source target ↔ node = source ∨ node ∈ r := by
  rw [relate, Std.ExtTreeMap.mem_insert, Std.LawfulEqOrd.compare_eq_iff_eq, eq_comm]

@[simp] theorem mem_image_relate {r : Relation κ} {source target node other : κ} :
    other ∈ (r.relate source target).image node ↔
      node = source ∧ other = target ∨ other ∈ r.image node := by
  rw [relate, image, Std.ExtTreeMap.getD_insert]
  split
  next same =>
    obtain rfl := Std.LawfulEqOrd.eq_of_compare same
    rw [Std.ExtTreeSet.mem_insert, Std.LawfulEqOrd.compare_eq_iff_eq]
    simp [eq_comm]
  next apart =>
    have different : node ≠ source := fun same => apart (same ▸ Std.ReflCmp.compare_self)
    simp [different, image]

theorem mem_carrier {r : Relation κ} {node : κ} :
    node ∈ r.carrier ↔ node ∈ r ∨ ∃ source, node ∈ r.image source := by
  simp only [carrier, Std.ExtTreeSet.mem_union_iff, mem_domain, mem_range]

theorem size_image_le_size_carrier (r : Relation κ) (node : κ) :
    (r.image node).size ≤ r.carrier.size :=
  KeySet.size_le_of_subset fun _ related => mem_carrier.mpr (.inr ⟨node, related⟩)

theorem image_tabulate {s : KeySet κ} {f : κ → KeySet κ} {node : κ} :
    image (s.tabulate f) node = if node ∈ s then f node else ∅ := by
  rw [image, Std.ExtTreeMap.getD_eq_getD_getElem?, KeySet.getElem?_tabulate]
  split <;> rfl

@[simp] theorem mem_converse {r : Relation κ} {node : κ} :
    node ∈ r.converse ↔ node ∈ r.carrier := by
  rw [converse, KeySet.mem_tabulate]

@[simp] theorem mem_image_converse {r : Relation κ} {source target : κ} :
    source ∈ r.converse.image target ↔ target ∈ r.image source := by
  rw [converse, image_tabulate]
  split
  next =>
    simp only [KeySet.mem_select, mem_domain, decide_eq_true_eq]
    exact ⟨And.right, fun related => ⟨mem_of_mem_image related, related⟩⟩
  next missing =>
    refine iff_of_false Std.ExtTreeSet.not_mem_empty fun related => missing ?_
    exact mem_carrier.mpr (.inr ⟨source, related⟩)

@[simp] theorem mem_compose {r s : Relation κ} {node : κ} : node ∈ r.compose s ↔ node ∈ r := by
  rw [compose, KeySet.mem_tabulate, mem_domain]

@[simp] theorem mem_image_compose {r s : Relation κ} {source target : κ} :
    target ∈ (r.compose s).image source ↔ ∃ middle ∈ r.image source, target ∈ s.image middle := by
  rw [compose, image_tabulate]
  split
  next => simp only [KeySet.mem_flatMap]
  next missing =>
    refine iff_of_false Std.ExtTreeSet.not_mem_empty ?_
    rintro ⟨_, related, _⟩
    exact missing (mem_domain.mpr (mem_of_mem_image related))

@[simp] theorem mem_difference {r s : Relation κ} {node : κ} :
    node ∈ r.difference s ↔ node ∈ r := by
  rw [difference, KeySet.mem_tabulate, mem_domain]

@[simp] theorem mem_image_difference {r s : Relation κ} {source target : κ} :
    target ∈ (r.difference s).image source ↔ target ∈ r.image source ∧ target ∉ s.image source := by
  rw [difference, image_tabulate]
  split
  next => simp only [Std.ExtTreeSet.mem_diff_iff]
  next missing =>
    refine iff_of_false Std.ExtTreeSet.not_mem_empty ?_
    rintro ⟨related, _⟩
    exact missing (mem_domain.mpr (mem_of_mem_image related))

@[simp] theorem mem_irreflexive {r : Relation κ} {node : κ} : node ∈ r.irreflexive ↔ node ∈ r := by
  rw [irreflexive, KeySet.mem_tabulate, mem_domain]

@[simp] theorem mem_image_irreflexive {r : Relation κ} {source target : κ} :
    target ∈ r.irreflexive.image source ↔ target ∈ r.image source ∧ target ≠ source := by
  rw [irreflexive, image_tabulate]
  split
  next =>
    rw [Std.ExtTreeSet.mem_erase, ne_eq, Std.LawfulEqOrd.compare_eq_iff_eq, and_comm, eq_comm,
      ne_eq]
  next missing =>
    refine iff_of_false Std.ExtTreeSet.not_mem_empty ?_
    rintro ⟨related, _⟩
    exact missing (mem_domain.mpr (mem_of_mem_image related))

@[simp] theorem mem_restrict {r : Relation κ} {keys : KeySet κ} {node : κ} :
    node ∈ r.restrict keys ↔ node ∈ r ∧ node ∈ keys := by
  rw [restrict, KeySet.mem_tabulate, Std.ExtTreeSet.mem_inter_iff, mem_domain]

@[simp] theorem mem_image_restrict {r : Relation κ} {keys : KeySet κ} {source target : κ} :
    target ∈ (r.restrict keys).image source ↔ source ∈ keys ∧ target ∈ r.image source := by
  rw [restrict, image_tabulate]
  split
  next found =>
    have listed := (Std.ExtTreeSet.mem_inter_iff.mp found).2
    exact ⟨fun related => ⟨listed, related⟩, And.right⟩
  next missing =>
    refine iff_of_false Std.ExtTreeSet.not_mem_empty ?_
    rintro ⟨listed, related⟩
    exact missing (Std.ExtTreeSet.mem_inter_iff.mpr
      ⟨mem_domain.mpr (mem_of_mem_image related), listed⟩)

end Laws

end Relation

end SsaForm
