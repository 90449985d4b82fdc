import SsaForm.Dominance.Solution
import SsaForm.Proofs.Dominance.Basic
import SsaForm.Proofs.Relation.DepthFirst

/-!
# The dominator equations are solved

Sweeping starts from the largest sets. Where every reached node is listed, each update can
only take nodes out of the sets, so that the sweeps settle before the limit, and nothing
that dominates a node is ever taken out. What is left when a sweep changes nothing satisfies
the equations, and following a path backwards through the equations meets every node that
is left.
-/

namespace SsaForm

section Settle

variable {α : Type} [DecidableEq α] {step : α → α}

/-- Repeating a step until it changes nothing ends with a value. -/
inductive Settles (step : α → α) : α → α → Prop where
  | done {value : α} : step value = value → Settles step value value
  | again {value result : α} :
    step value ≠ value → Settles step (step value) result → Settles step value result

/-- A stable outcome is that of the repetition without a limit. -/
theorem settles_of_stable {limit : Nat} {value : α}
    (stable : (settle step limit value).stable = true) :
    Settles step value (settle step limit value).value := by
  induction limit generalizing value with
  | zero => simp [settle] at stable
  | succ limit inductionHypothesis =>
    simp only [settle] at stable ⊢
    split at stable
    next unchanged =>
      rw [if_pos unchanged]
      exact .done unchanged
    next changed =>
      rw [if_neg changed]
      exact .again changed (inductionHypothesis stable)

/-- A property that every step keeps holds of the outcome. -/
theorem settle_preserves {property : α → Prop} (keeps : ∀ a, property a → property (step a))
    {limit : Nat} {value : α} (holds : property value) :
    property (settle step limit value).value := by
  induction limit generalizing value with
  | zero => exact holds
  | succ limit inductionHypothesis =>
    simp only [settle]
    split
    next => exact holds
    next => exact inductionHypothesis (keeps value holds)

/-- Repetition settles within the limit if every change decreases a measure that starts
below it. -/
theorem settle_stable {property : α → Prop} (measure : α → Nat)
    (keeps : ∀ a, property a → property (step a))
    (decreases : ∀ a, property a → step a ≠ a → measure (step a) < measure a)
    {limit : Nat} {value : α} (holds : property value) (room : measure value < limit) :
    (settle step limit value).stable = true := by
  induction limit generalizing value with
  | zero => omega
  | succ limit inductionHypothesis =>
    simp only [settle]
    split
    next => rfl
    next changed =>
      have smaller := decreases value holds changed
      exact inductionHypothesis (keeps value holds) (by omega)

/-- Repetition also settles if the measure starts below the limit behind the first step. -/
theorem settle_behind_first {property : α → Prop} (measure : α → Nat)
    (keeps : ∀ a, property a → property (step a))
    (decreases : ∀ a, property a → step a ≠ a → measure (step a) < measure a)
    {limit : Nat} {value : α} (holds : property (step value))
    (room : measure (step value) < limit) :
    (settle step (limit + 1) value).stable = true ∧
      property (settle step (limit + 1) value).value := by
  simp only [settle]
  split
  next unchanged =>
    rw [unchanged] at holds
    exact ⟨rfl, holds⟩
  next => exact ⟨settle_stable measure keeps decreases holds room, settle_preserves keeps holds⟩

end Settle

namespace Dominance

variable {κ : Type} [Ord κ] [Std.TransOrd κ] [Std.LawfulEqOrd κ]

theorem mem_equation {predecessors sets : Relation κ} {node d : κ} :
    d ∈ equation predecessors sets node ↔
      d = node ∨ ((∃ p ∈ predecessors.image node, p ∈ sets) ∧
        ∀ p ∈ predecessors.image node, p ∈ sets → d ∈ sets.image p) := by
  have listed : ∀ s, s ∈ (predecessors.image node).toList.filterMap (fun p => sets[p]?) ↔
      ∃ p ∈ predecessors.image node, p ∈ sets ∧ sets.image p = s := by
    intro s
    simp only [List.mem_filterMap, Std.ExtTreeSet.mem_toList, Relation.image,
      Std.ExtTreeMap.getD_eq_getD_getElem?]
    refine exists_congr fun p => and_congr_right fun _ => ?_
    constructor
    · intro found
      exact ⟨Std.ExtTreeMap.mem_iff_isSome_getElem?.mpr (by simp [found]), by simp [found]⟩
    · intro found
      obtain ⟨key, rfl⟩ := found
      simp [Std.ExtTreeMap.getElem?_eq_some_getElem key]
  rw [equation, Std.ExtTreeSet.mem_insert, Std.LawfulEqOrd.compare_eq_iff_eq, KeySet.mem_common,
    eq_comm (a := node)]
  refine or_congr_right (and_congr ?_ ?_)
  · rw [ne_eq, List.eq_nil_iff_forall_not_mem]
    simp only [listed, Classical.not_forall, Classical.not_not]
    constructor
    · intro present
      obtain ⟨_, p, before, key, _⟩ := present
      exact ⟨p, before, key⟩
    · intro present
      obtain ⟨p, before, key⟩ := present
      exact ⟨_, p, before, key, rfl⟩
  · constructor
    · intro shared p before key
      exact shared _ ((listed _).mpr ⟨p, before, key, rfl⟩)
    · intro shared s found
      obtain ⟨p, before, key, rfl⟩ := (listed s).mp found
      exact shared p before key

section Sweep

variable {predecessors sets : Relation κ} {order : List κ}

omit [Std.LawfulEqOrd κ] in
/-- A sweep keeps what each of its updates keeps. -/
theorem sweep_preserves (property : Relation κ → Prop)
    (keeps : ∀ node ∈ order, ∀ sets, property sets →
      property (sets.insert node (equation predecessors sets node)))
    (holds : property sets) : property (sweep predecessors order sets) :=
  List.foldlRecOn order _ holds fun sets kept node swept => keeps node swept sets kept

theorem mem_sweep {k : κ} : k ∈ sweep predecessors order sets ↔ k ∈ sets ∨ k ∈ order := by
  induction order generalizing sets with
  | nil => simp [sweep]
  | cons node rest inductionHypothesis =>
    have unfolded : sweep predecessors (node :: rest) sets =
        sweep predecessors rest (sets.insert node (equation predecessors sets node)) := rfl
    rw [unfolded, inductionHypothesis, Std.ExtTreeMap.mem_insert, Std.LawfulEqOrd.compare_eq_iff_eq,
      List.mem_cons, eq_comm (a := node), or_comm (a := k = node), or_assoc]

theorem image_sweep_of_not_mem {k : κ} (other : k ∉ order) :
    (sweep predecessors order sets).image k = sets.image k := by
  induction order generalizing sets with
  | nil => rfl
  | cons node rest inductionHypothesis =>
    have distinct : k ≠ node := fun equal => other (equal ▸ List.mem_cons_self)
    have later : k ∉ rest := fun inRest => other (List.mem_cons_of_mem _ inRest)
    exact (inductionHypothesis later).trans (Relation.image_insert_of_ne distinct)

/-- A sweep leaves the sets as they were if and only if none of its updates puts in another
set: each node is updated once, so no change is taken back. -/
theorem sweep_eq_self_iff (distinct : order.Nodup) :
    sweep predecessors order sets = sets ↔
      ∀ node ∈ order, sets[node]? = some (equation predecessors sets node) := by
  induction order with
  | nil => simp [sweep]
  | cons node rest inductionHypothesis =>
    obtain ⟨once, others⟩ := List.nodup_cons.mp distinct
    have idle : sets[node]? = some (equation predecessors sets node) →
        sweep predecessors (node :: rest) sets = sweep predecessors rest sets := by
      intro same
      have kept : sets.insert node (equation predecessors sets node) = sets :=
        Table.insert_eq_self same
      exact congrArg (sweep predecessors rest) kept
    rw [List.forall_mem_cons, ← inductionHypothesis others]
    constructor
    · intro unchanged
      have key : node ∈ sets := by
        rw [← unchanged, mem_sweep]
        exact .inr List.mem_cons_self
      have image : sets.image node = equation predecessors sets node := by
        calc sets.image node = (sweep predecessors (node :: rest) sets).image node := by
              rw [unchanged]
          _ = Relation.image (sets.insert node (equation predecessors sets node)) node :=
              image_sweep_of_not_mem once
          _ = equation predecessors sets node := Relation.image_insert_self
      have same : sets[node]? = some (equation predecessors sets node) := by
        rw [Relation.getElem?_eq_some_image key, image]
      exact ⟨same, (idle same).symm.trans unchanged⟩
    · rintro ⟨same, unchanged⟩
      exact (idle same).trans unchanged

end Sweep

/-- The sets have the listed nodes as keys and members, and the equations only ask for
smaller sets. -/
structure Descending (nodes order : List κ) (predecessors sets : Relation κ) : Prop where
  keys : ∀ k, k ∈ sets ↔ k ∈ nodes
  bounded : ∀ k d, d ∈ sets.image k → d ∈ nodes
  descends : ∀ k ∈ order, ∀ d ∈ equation predecessors sets k, d ∈ sets.image k

theorem equation_mono {predecessors smaller larger : Relation κ}
    (keys : ∀ k, k ∈ smaller ↔ k ∈ larger) (part : smaller.PartOf larger) {node d : κ}
    (asked : d ∈ equation predecessors smaller node) :
    d ∈ equation predecessors larger node := by
  rw [mem_equation] at asked ⊢
  refine asked.imp_right ?_
  intro common
  obtain ⟨⟨p, before, key⟩, shared⟩ := common
  refine ⟨⟨p, before, (keys p).mp key⟩, ?_⟩
  intro p before key
  exact part p d (shared p before ((keys p).mpr key))

namespace Descending

variable {nodes order : List κ} {predecessors sets : Relation κ}

theorem update_partOf (descending : Descending nodes order predecessors sets) {node : κ}
    (swept : node ∈ order) :
    Relation.PartOf (sets.insert node (equation predecessors sets node)) sets := by
  intro k d related
  by_cases updated : k = node
  · subst updated
    rw [Relation.image_insert_self] at related
    exact descending.descends k swept d related
  · rwa [Relation.image_insert_of_ne updated] at related

theorem update (descending : Descending nodes order predecessors sets)
    (listed : ∀ k ∈ order, k ∈ nodes) {node : κ} (swept : node ∈ order) :
    Descending nodes order predecessors
      (sets.insert node (equation predecessors sets node)) := by
  have part := descending.update_partOf swept
  have keys : ∀ k, k ∈ sets.insert node (equation predecessors sets node) ↔ k ∈ sets := fun k =>
    Relation.mem_insert_of_mem ((descending.keys node).mpr (listed node swept))
  refine ⟨fun k => (keys k).trans (descending.keys k), ?_, ?_⟩
  · intro k d related
    exact descending.bounded k d (part k d related)
  · intro k inOrder d asked
    have before := equation_mono keys part asked
    by_cases updated : k = node
    · subst updated
      rwa [Relation.image_insert_self]
    · rw [Relation.image_insert_of_ne updated]
      exact descending.descends k inOrder d before

/-- A sweep keeps the sets descending and adds no pair. -/
theorem sweep (descending : Descending nodes order predecessors sets)
    (listed : ∀ k ∈ order, k ∈ nodes) :
    Descending nodes order predecessors (sweep predecessors order sets) ∧
      Relation.PartOf (Dominance.sweep predecessors order sets) sets := by
  refine sweep_preserves (fun later => Descending nodes order predecessors later ∧
    later.PartOf sets) ?_ ⟨descending, .refl sets⟩
  rintro node swept later ⟨kept, smaller⟩
  exact ⟨kept.update listed swept, (kept.update_partOf swept).trans smaller⟩

end Descending

/-- The number of pairs at the listed keys. -/
def totalSize (sets : Relation κ) : List κ → Nat
  | [] => 0
  | k :: rest => (sets.image k).size + totalSize sets rest

omit [Std.LawfulEqOrd κ] in
theorem totalSize_le {smaller larger : Relation κ} (part : smaller.PartOf larger)
    (order : List κ) : totalSize smaller order ≤ totalSize larger order := by
  induction order with
  | nil => exact Nat.le_refl 0
  | cons k rest inductionHypothesis =>
    exact Nat.add_le_add (KeySet.size_le_of_subset (part k)) inductionHypothesis

theorem totalSize_lt {smaller larger : Relation κ} (part : smaller.PartOf larger)
    {order : List κ} {k d : κ} (listed : k ∈ order) (before : d ∈ larger.image k)
    (removed : d ∉ smaller.image k) : totalSize smaller order < totalSize larger order := by
  induction order with
  | nil => simp at listed
  | cons head rest inductionHypothesis =>
    rcases List.mem_cons.mp listed with rfl | later
    · exact Nat.add_lt_add_of_lt_of_le (KeySet.size_lt_of_subset (part k) before removed)
        (totalSize_le part rest)
    · exact Nat.add_lt_add_of_le_of_lt (KeySet.size_le_of_subset (part head))
        (inductionHypothesis later)

theorem totalSize_le_mul {sets : Relation κ} {nodes : List κ}
    (bounded : ∀ k d, d ∈ sets.image k → d ∈ nodes) (order : List κ) :
    totalSize sets order ≤ order.length * nodes.length := by
  induction order with
  | nil => simp [totalSize]
  | cons k rest inductionHypothesis =>
    have small : (sets.image k).size ≤ nodes.length :=
      Nat.le_trans (KeySet.size_le_of_subset fun d related =>
        KeySet.mem_ofList.mpr (bounded k d related)) Std.ExtTreeSet.size_ofList_le
    simp only [totalSize, List.length_cons, Nat.succ_mul]
    omega

theorem Descending.totalSize_sweep_lt {nodes order : List κ} {predecessors sets : Relation κ}
    (descending : Descending nodes order predecessors sets) (listed : ∀ k ∈ order, k ∈ nodes)
    (changed : Dominance.sweep predecessors order sets ≠ sets) :
    totalSize (Dominance.sweep predecessors order sets) order < totalSize sets order := by
  obtain ⟨kept, part⟩ := descending.sweep listed
  apply Classical.byContradiction
  intro equal
  apply changed
  apply Relation.ext_image
  · intro k
    rw [kept.keys, descending.keys]
  · intro k d
    refine ⟨part k d, ?_⟩
    intro before
    apply Classical.byContradiction
    intro removed
    by_cases swept : k ∈ order
    · exact equal (totalSize_lt part swept before removed)
    · rw [image_sweep_of_not_mem swept] at removed
      exact removed before

section Start

variable {nodes : List κ} {entry : κ}

omit [Std.LawfulEqOrd κ] in
theorem image_initial_entry : (initial nodes entry).image entry = .ofList [entry] :=
  Relation.image_insert_self

theorem image_initial {k : κ} (listed : k ∈ nodes) (inner : k ≠ entry) :
    (initial nodes entry).image k = .ofList nodes := by
  rw [initial, Relation.image_insert_of_ne inner, Relation.image_tabulate,
    if_pos (KeySet.mem_ofList.mpr listed)]

theorem mem_initial (entryListed : entry ∈ nodes) {k : κ} :
    k ∈ initial nodes entry ↔ k ∈ nodes := by
  rw [initial, Std.ExtTreeMap.mem_insert, KeySet.mem_tabulate, KeySet.mem_ofList,
    Std.LawfulEqOrd.compare_eq_iff_eq]
  constructor
  · intro key
    rcases key with rfl | listed
    · exact entryListed
    · exact listed
  · exact .inr

theorem initial_bounded (entryListed : entry ∈ nodes) {k d : κ}
    (related : d ∈ (initial nodes entry).image k) : d ∈ nodes := by
  have key := (mem_initial entryListed).mp (Relation.mem_of_mem_image related)
  by_cases first : k = entry
  · rw [first, image_initial_entry, KeySet.mem_ofList, List.mem_singleton] at related
    rwa [related]
  · rwa [image_initial key first, KeySet.mem_ofList] at related

/-- The starting sets are as large as the equations could ask for. -/
theorem descending_initial {order : List κ} {predecessors : Relation κ}
    (entryListed : entry ∈ nodes) (listed : ∀ k ∈ order, k ∈ nodes)
    (inner : ∀ k ∈ order, k ≠ entry) :
    Descending nodes order predecessors (initial nodes entry) := by
  refine ⟨fun k => mem_initial entryListed, fun k d => initial_bounded entryListed, ?_⟩
  intro k swept d asked
  rw [image_initial (listed k swept) (inner k swept), KeySet.mem_ofList]
  rcases mem_equation.mp asked with rfl | ⟨⟨p, before, key⟩, shared⟩
  · exact listed d swept
  · exact initial_bounded entryListed (shared p before key)

end Start

variable [DecidableEq κ]

/-- The nodes that a sweep updates: what the entry reaches, without the entry. -/
def innerOrder (successors : Relation κ) (entry : κ) : List κ :=
  (successors.reversePostorder entry).filter fun node => node ≠ entry

theorem mem_innerOrder {successors : Relation κ} {entry k : κ} :
    k ∈ innerOrder successors entry ↔ successors.Reaches entry k ∧ k ≠ entry := by
  simp only [innerOrder, List.mem_filter, Relation.mem_reversePostorder, decide_eq_true_eq]
  constructor
  · intro swept
    obtain ⟨⟨_, reached⟩, inner⟩ := swept
    exact ⟨reached, inner⟩
  · intro reachedInner
    obtain ⟨reached, inner⟩ := reachedInner
    exact ⟨⟨reached.mem_start inner, reached⟩, inner⟩

theorem entry_not_mem_innerOrder {successors : Relation κ} {entry : κ} :
    entry ∉ innerOrder successors entry :=
  fun swept => (mem_innerOrder.mp swept).2 rfl

theorem nodup_innerOrder {successors : Relation κ} {entry : κ} :
    (innerOrder successors entry).Nodup :=
  (List.nodup_reverse.mpr Relation.nodup_postorder).filter _

section Solve

variable {nodes : List κ} {successors predecessors : Relation κ} {entry : κ}

theorem solve_sets (entryListed : entry ∈ nodes) :
    (solve nodes successors predecessors entry).sets =
      (settle (sweep predecessors (innerOrder successors entry))
        (sweepLimit nodes (successors.reversePostorder entry)) (initial nodes entry)).value := by
  rw [solve, if_pos entryListed]
  rfl

theorem solve_stable (entryListed : entry ∈ nodes) :
    (solve nodes successors predecessors entry).stable =
      (settle (sweep predecessors (innerOrder successors entry))
        (sweepLimit nodes (successors.reversePostorder entry)) (initial nodes entry)).stable := by
  rw [solve, if_pos entryListed]
  rfl

/-- Whatever the updates keep holds of the solution, if it holds at the start. -/
theorem solve_preserves (property : Relation κ → Prop) (entryListed : entry ∈ nodes)
    (keeps : ∀ node ∈ innerOrder successors entry, ∀ sets, property sets →
      property (sets.insert node (equation predecessors sets node)))
    (holds : property (initial nodes entry)) :
    property (solve nodes successors predecessors entry).sets := by
  rw [solve_sets entryListed]
  refine settle_preserves ?_ holds
  intro sets kept
  exact sweep_preserves property keeps kept

/-- Where all reached nodes are listed the sweeps settle within the limit. -/
theorem solve_settles (listed : ∀ k, successors.Reaches entry k → k ∈ nodes) :
    (solve nodes successors predecessors entry).stable = true ∧
      Descending nodes (innerOrder successors entry) predecessors
        (solve nodes successors predecessors entry).sets := by
  have entryListed : entry ∈ nodes := listed entry (.refl successors entry)
  have orderListed : ∀ k ∈ innerOrder successors entry, k ∈ nodes := fun k swept =>
    listed k (mem_innerOrder.mp swept).1
  have start : Descending nodes (innerOrder successors entry) predecessors
      (initial nodes entry) :=
    descending_initial entryListed orderListed fun k swept => (mem_innerOrder.mp swept).2
  have room : totalSize (initial nodes entry) (innerOrder successors entry) <
      sweepLimit nodes (successors.reversePostorder entry) := by
    have bound := totalSize_le_mul start.bounded (innerOrder successors entry)
    have shorter : (innerOrder successors entry).length ≤
        (successors.reversePostorder entry).length := List.length_filter_le _ _
    have product := Nat.mul_le_mul_right nodes.length shorter
    simp only [sweepLimit, Nat.mul_add]
    omega
  constructor
  · rw [solve_stable entryListed]
    exact settle_stable (totalSize · (innerOrder successors entry))
      (fun sets descending => (descending.sweep orderListed).1)
      (fun sets descending changed => descending.totalSize_sweep_lt orderListed changed) start room
  · exact solve_preserves _ entryListed
      (fun node swept sets descending => descending.update orderListed swept) start

/-- If the solution is stable the sweeps without a limit end with it. -/
theorem settles_solve (entryListed : entry ∈ nodes)
    (stable : (solve nodes successors predecessors entry).stable = true) :
    Settles (sweep predecessors (innerOrder successors entry)) (initial nodes entry)
      (solve nodes successors predecessors entry).sets := by
  rw [solve_stable entryListed] at stable
  rw [solve_sets entryListed]
  exact settles_of_stable stable

/-- A stable solution satisfies the equations: the sweep that changed nothing has made no
update. -/
theorem getElem?_solve_sets (entryListed : entry ∈ nodes)
    (stable : (solve nodes successors predecessors entry).stable = true) :
    ∀ node ∈ innerOrder successors entry,
      (solve nodes successors predecessors entry).sets[node]? =
        some (equation predecessors (solve nodes successors predecessors entry).sets node) := by
  rw [← sweep_eq_self_iff nodup_innerOrder, solve_sets entryListed]
  rw [solve_stable entryListed] at stable
  exact step_settle stable

theorem mem_solve_sets (listed : ∀ k, successors.Reaches entry k → k ∈ nodes) {k : κ}
    (reached : successors.Reaches entry k) (inner : k ≠ entry) (d : κ) :
    d ∈ (solve nodes successors predecessors entry).sets.image k ↔
      d ∈ equation predecessors (solve nodes successors predecessors entry).sets k := by
  have entryListed : entry ∈ nodes := listed entry (.refl successors entry)
  have swept : k ∈ innerOrder successors entry := mem_innerOrder.mpr ⟨reached, inner⟩
  rw [Relation.image_eq_of_getElem?
    (getElem?_solve_sets entryListed (solve_settles listed).1 k swept)]

theorem image_solve_sets (entryListed : entry ∈ nodes) {k : κ}
    (other : k ∉ innerOrder successors entry) :
    (solve nodes successors predecessors entry).sets.image k = (initial nodes entry).image k := by
  apply solve_preserves (fun sets => sets.image k = (initial nodes entry).image k)
    entryListed ?_ rfl
  intro node swept sets kept
  have distinct : k ≠ node := fun same => other (same ▸ swept)
  rw [Relation.image_insert_of_ne distinct, kept]

theorem image_solve_entry (entryListed : entry ∈ nodes) :
    (solve nodes successors predecessors entry).sets.image entry = .ofList [entry] := by
  rw [image_solve_sets entryListed entry_not_mem_innerOrder, image_initial_entry]

end Solve

end Dominance

end SsaForm
