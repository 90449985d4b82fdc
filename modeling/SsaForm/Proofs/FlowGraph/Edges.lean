import SsaForm.Proofs.FlowGraph.Index

/-!
# Collecting edges

The edges of a graph are collected one after the other, in both directions at once. As long
as blocks bear the labels, both relations have the names of the blocks as keys and hold the
edges met so far; the first label that no block bears ends the collection.
-/

namespace SsaForm

namespace Edges

/-- Given links between named blocks, in both directions. -/
structure Hold (edges : Edges) (names : List String) (links : List (String × String)) : Prop where
  sources : ∀ name, name ∈ edges.successors ↔ name ∈ names
  targets : ∀ name, name ∈ edges.predecessors ↔ name ∈ names
  successors : ∀ source target,
    target ∈ edges.successors.image source ↔ (source, target) ∈ links
  predecessors : ∀ source target,
    source ∈ edges.predecessors.image target ↔ (source, target) ∈ links

variable {edges other : Edges} {names : List String} {links : List (String × String)}
  {source target : String}

theorem hold_between (names : List String) : (between names).Hold names [] := by
  constructor <;> simp [between, Relation.image_tabulate]

namespace Hold

theorem eq (hold : edges.Hold names links) (same : other.Hold names links) : edges = other := by
  obtain ⟨successors, predecessors⟩ := edges
  obtain ⟨otherSuccessors, otherPredecessors⟩ := other
  rw [mk.injEq]
  constructor
  · apply Relation.ext_image
    · exact fun name => (hold.sources name).trans (same.sources name).symm
    · exact fun name d => (hold.successors name d).trans (same.successors name d).symm
  · apply Relation.ext_image
    · exact fun name => (hold.targets name).trans (same.targets name).symm
    · exact fun name d => (hold.predecessors d name).trans (same.predecessors d name).symm

theorem add (hold : edges.Hold names links) (starts : source ∈ names) (ends : target ∈ names) :
    ∃ more, edges.add source target = .ok more ∧ more.Hold names (links ++ [(source, target)]) := by
  refine ⟨_, if_pos ((hold.targets target).mpr ends), ?_, ?_, ?_, ?_⟩
  · intro name
    rw [Relation.mem_relate, hold.sources]
    exact or_iff_right_of_imp fun same => same ▸ starts
  · intro name
    rw [Relation.mem_relate, hold.targets]
    exact or_iff_right_of_imp fun same => same ▸ ends
  · intro start goal
    rw [Relation.mem_image_relate, hold.successors, List.mem_append, List.mem_singleton,
      Prod.mk.injEq, or_comm]
  · intro start goal
    rw [Relation.mem_image_relate, hold.predecessors, List.mem_append, List.mem_singleton,
      Prod.mk.injEq, or_comm, and_comm]

theorem add_dangling (hold : edges.Hold names links) (stray : target ∉ names) :
    edges.add source target = .error (.danglingEdge source target) :=
  if_neg (stray ∘ (hold.targets target).mp)

/-- Links between named blocks are all added. -/
theorem collect (hold : edges.Hold names links) {more : List (String × String)}
    (named : ∀ link ∈ more, link.1 ∈ names ∧ link.2 ∈ names) :
    ∃ collected, more.foldlM (fun edges link => edges.add link.1 link.2) edges = .ok collected ∧
      collected.Hold names (links ++ more) := by
  induction more generalizing edges links with
  | nil => exact ⟨edges, rfl, by rwa [List.append_nil]⟩
  | cons link rest inductionHypothesis =>
    obtain ⟨⟨starts, ends⟩, others⟩ := List.forall_mem_cons.mp named
    obtain ⟨next, added, holds⟩ := hold.add starts ends
    obtain ⟨collected, folded, whole⟩ := inductionHypothesis holds others
    refine ⟨collected, ?_, by simpa using whole⟩
    rw [List.foldlM_cons, added]
    exact folded

/-- Both relations hold the same edges, read in opposite directions. -/
theorem predecessors_eq_converse (hold : edges.Hold names links)
    (named : ∀ link ∈ links, link.2 ∈ names) : edges.predecessors = edges.successors.converse := by
  apply Relation.ext_image
  · intro name
    rw [hold.targets, Relation.mem_converse, Relation.mem_carrier, hold.sources]
    refine (or_iff_left_of_imp ?_).symm
    rintro ⟨source, related⟩
    exact named _ ((hold.successors source name).mp related)
  · intro name source
    rw [hold.predecessors, Relation.mem_image_converse, hold.successors]

end Hold

end Edges

namespace FlowGraph

variable {g : FlowGraph}

theorem mem_links {source target : String} :
    (source, target) ∈ g.links ↔ ∃ b ∈ g.blocks, target ∈ b.targets ∧ b.name = source := by
  simp [links]

theorem fst_mem_names {link : String × String} (listed : link ∈ g.links) : link.1 ∈ g.names := by
  obtain ⟨b, inside, _, named⟩ := mem_links.mp listed
  exact List.mem_map.mpr ⟨b, inside, named⟩

namespace Indexed

variable (indexed : g.Indexed)

include indexed

/-- With an exact index the labels are checked against the names of the blocks. -/
theorem dangling?_eq_find? : g.dangling? = g.links.find? fun link => link.2 ∉ g.names := by
  rw [dangling?, links, List.find?_flatMap]
  simp only [List.find?_map, indexed.mem_index]
  rfl

theorem dangling?_eq_none :
    g.dangling? = none ↔ ∀ b ∈ g.blocks, ∀ target ∈ b.targets, target ∈ g.names := by
  simp [dangling?, indexed.mem_index]

theorem snd_mem_names (resolved : g.dangling? = none) {link : String × String}
    (listed : link ∈ g.links) : link.2 ∈ g.names := by
  obtain ⟨b, inside, targeted, _⟩ := mem_links.mp listed
  exact indexed.dangling?_eq_none.mp resolved b inside link.2 targeted

/-- The first label that no block bears ends the collection. -/
theorem edges_of_dangling {block target : String} (dangling : g.dangling? = some (block, target)) :
    g.edges = .error (.danglingEdge block target) := by
  rw [indexed.dangling?_eq_find?, List.find?_eq_some_iff_append] at dangling
  obtain ⟨stray, before, following, whole, resolved⟩ := dangling
  have named : ∀ link ∈ before, link.1 ∈ g.names ∧ link.2 ∈ g.names := by
    intro link earlier
    refine ⟨fst_mem_names ?_, by simpa using resolved link earlier⟩
    rw [whole]
    exact List.mem_append_left _ earlier
  obtain ⟨collected, folded, hold⟩ := (Edges.hold_between g.names).collect named
  rw [edges, whole, List.foldlM_append, folded]
  change (collected.add block target >>= _) = _
  rw [hold.add_dangling (by simpa using stray)]
  rfl

theorem edges_of_resolved (resolved : g.dangling? = none) :
    ∃ edges, g.edges = .ok edges ∧ edges.Hold g.names g.links :=
  (Edges.hold_between g.names).collect fun _ listed =>
    ⟨fst_mem_names listed, indexed.snd_mem_names resolved listed⟩

/-- What a successful collection holds. -/
theorem edges_eq_ok_iff {edges : Edges} :
    g.edges = .ok edges ↔ g.dangling? = none ∧ edges.Hold g.names g.links := by
  cases dangling : g.dangling? with
  | some pair => simp [indexed.edges_of_dangling dangling]
  | none =>
    obtain ⟨collected, found, hold⟩ := indexed.edges_of_resolved dangling
    rw [found, Except.ok.injEq]
    constructor
    · rintro rfl
      exact ⟨rfl, hold⟩
    · rintro ⟨_, same⟩
      exact hold.eq same

end Indexed

end FlowGraph

end SsaForm
