import SsaForm.Proofs.Dominance.Solution

/-!
# Sweeps settle on an incomplete node list

Nodes that the entry reaches may be missing from the list. They have no sets at first, and the
sets that listed nodes start from lack them, so the first sweep may put nodes into sets. From
then on sets only shrink. What the first sweep has not put into a set is missing from the sets
of all nodes further down as well, and an edge that leads against the order comes from there.
-/

namespace SsaForm.Dominance

variable {κ : Type} [Ord κ] [Std.TransOrd κ] [Std.LawfulEqOrd κ]

section Sweep

variable {predecessors sets : Relation κ} {order : List κ}

/-- In one sweep a node sees the new sets of the nodes before it and the old sets of all
others. -/
theorem mem_image_sweep (distinct : order.Nodup) {node d : κ} (swept : node ∈ order) :
    d ∈ (sweep predecessors order sets).image node ↔
      d = node ∨ ((∃ p ∈ predecessors.image node, p ∈ sets ∨ Precedes order p node) ∧
        ∀ p ∈ predecessors.image node,
          (Precedes order p node → d ∈ (sweep predecessors order sets).image p) ∧
          (¬ Precedes order p node → p ∈ sets → d ∈ sets.image p)) := by
  obtain ⟨before, after, rfl⟩ := List.append_of_mem swept
  have earlier : ∀ p, Precedes (before ++ node :: after) p node ↔ p ∈ before :=
    fun p => Precedes.append_cons_iff distinct
  obtain ⟨_, distinctAfter, apart⟩ := List.nodup_append.mp distinct
  have unfolded : sweep predecessors (before ++ node :: after) sets =
      sweep predecessors after ((sweep predecessors before sets).insert node
        (equation predecessors (sweep predecessors before sets) node)) := List.foldl_append
  have updated : (sweep predecessors (before ++ node :: after) sets).image node =
      equation predecessors (sweep predecessors before sets) node := by
    rw [unfolded, image_sweep_of_not_mem (List.nodup_cons.mp distinctAfter).1,
      Relation.image_insert_self]
  have seen : ∀ p ∈ before, (sweep predecessors before sets).image p =
      (sweep predecessors (before ++ node :: after) sets).image p := by
    intro p early
    have notNode : p ≠ node := apart p early node List.mem_cons_self
    have notAfter : p ∉ after := fun late => apart p early p (List.mem_cons_of_mem _ late) rfl
    rw [unfolded, image_sweep_of_not_mem notAfter, Relation.image_insert_of_ne notNode]
  rw [updated, mem_equation]
  refine or_congr_right (and_congr ?_ ?_)
  · simp only [mem_sweep, earlier]
  · refine forall_congr' fun p => forall_congr' fun _ => ?_
    rw [earlier, mem_sweep]
    by_cases early : p ∈ before
    · simp [early, seen p early]
    · simp [early, image_sweep_of_not_mem early]

end Sweep

variable [DecidableEq κ]

section Order

variable {successors : Relation κ} {entry : κ}

theorem precedes_innerOrder_iff {first second : κ} (firstInner : first ≠ entry)
    (secondInner : second ≠ entry) :
    Precedes (innerOrder successors entry) first second ↔
      Precedes (successors.postorder entry) second first := by
  constructor
  · intro precedes
    have reversed := (precedes.mono List.filter_sublist).reverse
    rwa [Relation.reversePostorder, List.reverse_reverse] at reversed
  · intro precedes
    have kept := List.Sublist.filter (fun node => decide (node ≠ entry)) precedes.reverse
    rwa [List.filter_cons_of_pos (by simpa using firstInner),
      List.filter_cons_of_pos (by simpa using secondInner)] at kept

end Order

section First

variable {nodes : List κ} {successors : Relation κ} {entry : κ}

/-- The sets behind the first sweep. -/
def firstSets (nodes : List κ) (successors : Relation κ) (entry : κ) : Relation κ :=
  sweep successors.converse (innerOrder successors entry) (initial nodes entry)

theorem mem_firstSets (entryListed : entry ∈ nodes) {k : κ} :
    k ∈ firstSets nodes successors entry ↔ k ∈ nodes ∨ k ∈ innerOrder successors entry := by
  rw [firstSets, mem_sweep, mem_initial entryListed]

theorem image_firstSets_of_not_mem {k : κ} (unswept : k ∉ innerOrder successors entry) :
    (firstSets nodes successors entry).image k = (initial nodes entry).image k :=
  image_sweep_of_not_mem unswept

/-- What is missing from the set of a node is missing further down the order: the node was
swept before. -/
theorem not_mem_firstSets_of_step (entryListed : entry ∈ nodes) {node next d : κ}
    (related : next ∈ successors.image node)
    (earlier : Precedes (successors.postorder entry) next node) (other : d ≠ next)
    (missing : d ∉ (firstSets nodes successors entry).image node) :
    d ∉ (firstSets nodes successors entry).image next := by
  have inner : next ≠ entry := by
    rintro rfl
    exact Relation.not_precedes_start earlier
  have swept : next ∈ innerOrder successors entry :=
    mem_innerOrder.mpr ⟨(Relation.mem_postorder.mp earlier.left_mem).2, inner⟩
  intro found
  rcases (mem_image_sweep nodup_innerOrder swept).mp found with same | ⟨_, shared⟩
  · exact other same
  obtain ⟨new, old⟩ := shared node (Relation.mem_image_converse.mpr related)
  by_cases first : node = entry
  · subst first
    apply missing
    rw [image_firstSets_of_not_mem entry_not_mem_innerOrder]
    exact old (fun precedes => entry_not_mem_innerOrder precedes.left_mem)
      ((mem_initial entryListed).mpr entryListed)
  · exact missing (new ((precedes_innerOrder_iff first inner).mpr earlier))

/-- Whatever is missing at the top of a descent is missing at its end, unless the descent passes
it on the way. -/
theorem not_mem_firstSets_of_descends (entryListed : entry ∈ nodes) {top node d : κ}
    (descends : Relation.Descends successors (successors.postorder entry) top node)
    (missing : d ∉ (firstSets nodes successors entry).image top) :
    d ∉ (firstSets nodes successors entry).image node ∨
      Precedes (successors.postorder entry) d top ∧
        (d = node ∨ Precedes (successors.postorder entry) node d) := by
  have distinct : (successors.postorder entry).Nodup := Relation.nodup_postorder
  induction descends with
  | refl => exact .inl missing
  | @step node next above related earlier inductionHypothesis =>
    rcases inductionHypothesis with absent | ⟨below, passed⟩
    · by_cases here : d = next
      · subst here
        rcases above.eq_or_precedes distinct with rfl | before
        · exact .inr ⟨earlier, .inl rfl⟩
        · exact .inr ⟨earlier.trans distinct before, .inl rfl⟩
      · exact .inl (not_mem_firstSets_of_step entryListed related earlier here absent)
    · rcases passed with rfl | before
      · exact .inr ⟨below, .inr earlier⟩
      · exact .inr ⟨below, .inr (earlier.trans distinct before)⟩

theorem mem_postorder_of_mem_innerOrder {node : κ} (swept : node ∈ innerOrder successors entry) :
    node ∈ successors.postorder entry := by
  obtain ⟨reached, inner⟩ := mem_innerOrder.mp swept
  exact Relation.mem_postorder.mpr ⟨reached.mem_start inner, reached⟩

theorem mem_firstSets_of_mem_postorder (entryListed : entry ∈ nodes) {k : κ}
    (listed : k ∈ successors.postorder entry) : k ∈ firstSets nodes successors entry := by
  rw [mem_firstSets entryListed]
  by_cases first : k = entry
  · exact .inl (first ▸ entryListed)
  · exact .inr (mem_innerOrder.mpr ⟨(Relation.mem_postorder.mp listed).2, first⟩)

/-- If an unlisted node is missing at a node with an edge that leads against the order, it is
missing at one of the predecessors: at the source of that edge, or else at the predecessor
above the node, since the descent from the entry has not passed it there. -/
theorem exists_predecessor_missing (entryListed : entry ∈ nodes) {node source d : κ}
    (swept : node ∈ innerOrder successors entry) (sourceSwept : source ∈ innerOrder successors entry)
    (related : node ∈ successors.image source)
    (late : ¬ Precedes (innerOrder successors entry) source node) (unlisted : d ∉ nodes)
    (missing : d ∉ (firstSets nodes successors entry).image node) :
    ∃ p, node ∈ successors.image p ∧ p ∈ firstSets nodes successors entry ∧
      d ∉ (firstSets nodes successors entry).image p := by
  have distinct : (successors.postorder entry).Nodup := Relation.nodup_postorder
  have inner := (mem_innerOrder.mp swept).2
  have backwards : Relation.Descends successors (successors.postorder entry) node source := by
    apply (Relation.precedes_or_descends_postorder
      (mem_postorder_of_mem_innerOrder sourceSwept) related).resolve_left
    intro earlier
    exact late ((precedes_innerOrder_iff (mem_innerOrder.mp sourceSwept).2 inner).mpr earlier)
  rcases not_mem_firstSets_of_descends entryListed backwards missing with absent | ⟨below, _⟩
  · exact ⟨source, related, (mem_firstSets entryListed).mpr (.inr sourceSwept), absent⟩
  · obtain ⟨parent, above, leads, earlier⟩ :=
      Relation.exists_above (mem_postorder_of_mem_innerOrder swept) inner
    have atEntry : d ∉ (firstSets nodes successors entry).image entry := by
      rw [image_firstSets_of_not_mem entry_not_mem_innerOrder, image_initial_entry,
        KeySet.mem_ofList, List.mem_singleton]
      rintro rfl
      exact unlisted entryListed
    rcases not_mem_firstSets_of_descends entryListed above atEntry with absent | ⟨_, passed⟩
    · exact ⟨parent, leads, mem_firstSets_of_mem_postorder entryListed earlier.right_mem, absent⟩
    · rcases passed with rfl | before
      · exact absurd earlier (below.asymm distinct)
      · exact absurd (earlier.trans distinct before) (below.asymm distinct)

/-- Behind the first sweep the equations ask for no more than the sets hold. -/
theorem equation_firstSets_subset (entryListed : entry ∈ nodes) {node d : κ}
    (swept : node ∈ innerOrder successors entry)
    (asked : d ∈ equation successors.converse (firstSets nodes successors entry) node) :
    d ∈ (firstSets nodes successors entry).image node := by
  have inner := (mem_innerOrder.mp swept).2
  rcases mem_equation.mp asked with same | ⟨_, shared⟩
  · exact (mem_image_sweep nodup_innerOrder swept).mpr (.inl same)
  apply Classical.byContradiction
  intro missing
  apply missing
  rw [firstSets, mem_image_sweep nodup_innerOrder swept]
  refine .inr ⟨?_, ?_⟩
  · obtain ⟨parent, _, leads, earlier⟩ :=
      Relation.exists_above (mem_postorder_of_mem_innerOrder swept) inner
    refine ⟨parent, Relation.mem_image_converse.mpr leads, ?_⟩
    by_cases first : parent = entry
    · subst first
      exact .inl ((mem_initial entryListed).mpr entryListed)
    · exact .inr ((precedes_innerOrder_iff first inner).mpr earlier)
  · intro p before
    refine ⟨fun early => ?_, fun late key => ?_⟩
    · exact shared p before ((mem_firstSets entryListed).mpr (.inr early.left_mem))
    · have isListed := (mem_initial entryListed).mp key
      have found := shared p before ((mem_firstSets entryListed).mpr (.inl isListed))
      by_cases sourceSwept : p ∈ innerOrder successors entry
      · rw [image_initial isListed (mem_innerOrder.mp sourceSwept).2, KeySet.mem_ofList]
        apply Classical.byContradiction
        intro unlisted
        obtain ⟨q, related, present, absent⟩ := exists_predecessor_missing entryListed swept
          sourceSwept (Relation.mem_image_converse.mp before) late unlisted missing
        exact absent (shared q (Relation.mem_image_converse.mpr related) present)
      · rwa [image_firstSets_of_not_mem sourceSwept] at found

theorem bounded_sweep {predecessors sets : Relation κ} {order bound : List κ}
    (listed : ∀ k ∈ order, k ∈ bound) (bounded : ∀ k d, d ∈ sets.image k → d ∈ bound) :
    ∀ k d, d ∈ (sweep predecessors order sets).image k → d ∈ bound := by
  refine sweep_preserves (fun later => ∀ k d, d ∈ later.image k → d ∈ bound) ?_ bounded
  intro node swept later kept k d related
  by_cases updated : k = node
  · subst updated
    rw [Relation.image_insert_self] at related
    rcases mem_equation.mp related with rfl | ⟨⟨p, before, key⟩, shared⟩
    · exact listed d swept
    · exact kept p d (shared p before key)
  · rw [Relation.image_insert_of_ne updated] at related
    exact kept k d related

/-- From the first sweep on the sets only shrink. -/
theorem descending_firstSets (entryListed : entry ∈ nodes) :
    Descending (nodes ++ innerOrder successors entry) (innerOrder successors entry)
      successors.converse (firstSets nodes successors entry) := by
  refine ⟨?_, ?_, ?_⟩
  · intro k
    rw [mem_firstSets entryListed, List.mem_append]
  · apply bounded_sweep fun k swept => List.mem_append_right _ swept
    intro k d related
    exact List.mem_append_left _ (initial_bounded entryListed related)
  · intro k swept d asked
    exact equation_firstSets_subset entryListed swept asked

/-- With the predecessors that belong to the successors the sweeps settle on every node list. -/
theorem solve_settles_of_converse (entryListed : entry ∈ nodes) :
    (solve nodes successors successors.converse entry).stable = true ∧
      Descending (nodes ++ innerOrder successors entry) (innerOrder successors entry)
        successors.converse (solve nodes successors successors.converse entry).sets := by
  have listed : ∀ k ∈ innerOrder successors entry, k ∈ nodes ++ innerOrder successors entry :=
    fun k swept => List.mem_append_right _ swept
  have start : Descending (nodes ++ innerOrder successors entry) (innerOrder successors entry)
      successors.converse (firstSets nodes successors entry) := descending_firstSets entryListed
  have room : totalSize (firstSets nodes successors entry) (innerOrder successors entry) <
      (successors.reversePostorder entry).length *
        (nodes.length + (successors.reversePostorder entry).length) + 1 := by
    have bound := totalSize_le_mul start.bounded (innerOrder successors entry)
    have shorter : (innerOrder successors entry).length ≤
        (successors.reversePostorder entry).length := List.length_filter_le _ _
    rw [List.length_append] at bound
    exact Nat.lt_succ_of_le (Nat.le_trans bound
      (Nat.mul_le_mul shorter (Nat.add_le_add_left shorter _)))
  rw [solve_stable entryListed, solve_sets entryListed]
  exact settle_behind_first (totalSize · (innerOrder successors entry))
    (fun sets descending => (descending.sweep listed).1)
    (fun sets descending changed => descending.totalSize_sweep_lt listed changed) start room

end First

/-- The dominator sets are computed for every node list, whether it misses nodes of the graph or
names others. Without the entry there is nothing to do. Else the sweeps come to one that changes
nothing: an update of the sets at any node that the entry reaches would put the same set in
its place. -/
theorem solve_ends_on_every_list (nodes : List κ) (successors : Relation κ) (entry : κ) :
    let solution := solve nodes successors successors.converse entry
    solution.stable = true ∧
      (entry ∉ nodes ∧ solution.report = none ∨
        entry ∈ nodes ∧
        Settles (sweep successors.converse (innerOrder successors entry)) (initial nodes entry)
          solution.sets ∧
        ∀ node ∈ innerOrder successors entry,
          solution.sets[node]? = some (equation successors.converse solution.sets node)) := by
  intro solution
  by_cases entryListed : entry ∈ nodes
  · have stable : solution.stable = true := (solve_settles_of_converse entryListed).1
    exact ⟨stable, .inr ⟨entryListed, settles_solve entryListed stable,
      getElem?_solve_sets entryListed stable⟩⟩
  · have unlisted : solution = _ := if_neg entryListed
    rw [unlisted]
    exact ⟨rfl, .inl ⟨entryListed, rfl⟩⟩

/-- A loop with a way out of it. -/
def sparse : Relation Nat :=
  .relating [(0, [1]), (1, [2]), (2, [1, 3])]

/-- The head of the loop is not listed, nor is the node behind the loop, and a node that does not
occur is. The set of the listed node in the loop does not start with the head and ends with
it. -/
theorem solve_ends_on_every_list_sparse :
    let solution := solve [0, 2, 7] sparse sparse.converse 0
    solution.stable = true ∧ 1 ∉ (initial [0, 2, 7] 0).image 2 ∧
      solution.sets[2]? = some (.ofList [0, 1, 2]) ∧
      equation sparse.converse solution.sets 2 = .ofList [0, 1, 2] := by
  obtain ⟨stable, unlisted | ⟨_, _, unchanged⟩⟩ := solve_ends_on_every_list [0, 2, 7] sparse 0
  · exact absurd List.mem_cons_self unlisted.1
  · have found : (solve [0, 2, 7] sparse sparse.converse 0).sets[2]? =
        some (.ofList [0, 1, 2]) := by decide +kernel
    have settled := unchanged 2 (by decide +kernel)
    exact ⟨stable, by decide +kernel, found, Option.some.inj (settled.symm.trans found)⟩

end SsaForm.Dominance
