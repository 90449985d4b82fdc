import SsaForm.FlowGraph.Construction
import SsaForm.Proofs.Naming
import SsaForm.Proofs.Relation.Basic

/-!
# The index of a graph

An index is exact if it leads from a name to a position just where the block at this position
bears the name. Then no two blocks bear the same name, and to index all blocks anew changes
nothing. Every step of a construction keeps the index exact: a block that is put behind the
others takes the next position, all positions are counted anew behind an added entry, and
closing renames no block. A block whose name is indexed already ends the construction, so the
first name that is repeated does.
-/

namespace SsaForm.FlowGraph

/-- The index leads from the name of every block to its position, and from no other name. -/
def Indexed (g : FlowGraph) : Prop :=
  ∀ (name : String) (position : Nat),
    g.index[name]? = some position ↔ g.names[position]? = some name

variable {g h : FlowGraph}

namespace Indexed

theorem distinct (indexed : g.Indexed) : g.names.Nodup := by
  refine List.pairwise_iff_getElem.mpr ?_
  intro i j bounded boundedToo before same
  have left := (indexed _ i).mpr (List.getElem?_eq_getElem bounded)
  have right := (indexed _ j).mpr (List.getElem?_eq_getElem boundedToo)
  rw [same, right, Option.some.injEq] at left
  omega

theorem mem_index (indexed : g.Indexed) {name : String} : name ∈ g.index ↔ name ∈ g.names := by
  rw [Std.ExtTreeMap.mem_iff_isSome_getElem?, Option.isSome_iff_exists, List.mem_iff_getElem?]
  exact exists_congr (indexed name)

/-- Names have only one exact index. -/
theorem index_eq (indexed : g.Indexed) (others : h.Indexed) (names : h.names = g.names) :
    h.index = g.index := by
  apply Std.ExtTreeMap.ext_getElem?
  intro name
  apply Option.ext
  intro position
  rw [others, indexed, names]

theorem congr (indexed : g.Indexed) (names : h.names = g.names) (index : h.index = g.index) :
    h.Indexed := by
  intro name position
  rw [names, index]
  exact indexed name position

end Indexed

@[simp] theorem blocks_reindex (g : FlowGraph) : g.reindex.blocks = g.blocks := rfl

theorem indexed_reindex (distinct : g.names.Nodup) : g.reindex.Indexed := by
  intro name position
  have apart : g.names.zipIdx.Pairwise fun first second => ¬ compare first.1 second.1 = .eq := by
    rw [← List.zipIdx_map_fst 0 g.names, List.Nodup, List.pairwise_map] at distinct
    refine distinct.imp ?_
    intro first second different
    simpa using different
  exact (Table.getElem?_ofList_iff apart).trans List.mem_zipIdx_iff_getElem?

theorem Indexed.reindex_eq (indexed : g.Indexed) : g.reindex = g := by
  have index := indexed.index_eq (indexed_reindex indexed.distinct) rfl
  exact congrArg (fun index => { g with index }) index

section Steps

theorem indexed_empty (f : Function) : (empty f).Indexed := by
  intro name position
  simp [empty, names]

theorem names_push (g : FlowGraph) (b : Block) : (g.push b).names = g.names ++ [b.name] :=
  List.map_append

theorem getElem?_concat_eq_some {names : List String} {last name : String} {position : Nat} :
    (names ++ [last])[position]? = some name ↔
      names[position]? = some name ∨ position = names.length ∧ last = name := by
  grind

/-- The new block takes the position behind the others. -/
theorem Indexed.push (indexed : g.Indexed) {b : Block} (fresh : b.name ∉ g.names) :
    (g.push b).Indexed := by
  intro name position
  have length : g.names.length = g.blocks.length := List.length_map ..
  rw [names_push, getElem?_concat_eq_some, length, FlowGraph.push, Std.ExtTreeMap.getElem?_insert]
  split
  next same =>
    have named := Std.LawfulEqOrd.eq_of_compare same
    have absent : g.names[position]? ≠ some name := fun found =>
      fresh (named ▸ List.mem_of_getElem? found)
    simp [absent, named, eq_comm]
  next other =>
    have different : b.name ≠ name := fun named => other (named ▸ Std.ReflCmp.compare_self)
    simp [indexed name position, different]

/-- All blocks move behind the new entry, and the index follows. -/
theorem Indexed.withEntry (indexed : g.Indexed) (used : KeySet String) :
    (g.withEntry used).Indexed := by
  rw [FlowGraph.withEntry]
  split
  next =>
    apply indexed_reindex
    refine List.nodup_cons.mpr ⟨?_, indexed.distinct⟩
    intro repeated
    apply freshName_not_mem "entry" (used ∪ .ofList g.names)
    exact Std.ExtTreeSet.mem_union_iff.mpr (.inr (KeySet.mem_ofList.mpr repeated))
  next => exact indexed

theorem endWith_name (b : Block) (i : Instr) : (endWith b i).name = b.name := by
  rw [endWith]
  split <;> rfl

theorem map_name_closeBlocks (blocks : List Block) :
    (closeBlocks blocks).map Block.name = blocks.map Block.name := by
  fun_induction closeBlocks blocks with
  | case1 => rfl
  | case2 b => simp [endWith_name]
  | case3 b next rest inductionHypothesis =>
    rw [List.map_cons, inductionHypothesis, endWith_name]
    rfl

theorem Indexed.close (indexed : g.Indexed) : g.close.Indexed :=
  indexed.congr (map_name_closeBlocks g.blocks) rfl

end Steps

section Repeated

/-- The first name that stands behind an equal one, where `seen` stands in front. -/
def firstRepeatAfter? (seen : List String) : List String → Option String
  | [] => none
  | name :: rest => if name ∈ seen then some name else firstRepeatAfter? (name :: seen) rest

/-- The first name that stands behind an equal one. -/
def firstRepeat? (names : List String) : Option String :=
  firstRepeatAfter? [] names

theorem firstRepeatAfter?_congr {seen other names : List String}
    (same : ∀ name ∈ names, name ∈ seen ↔ name ∈ other) :
    firstRepeatAfter? seen names = firstRepeatAfter? other names := by
  induction names generalizing seen other with
  | nil => rfl
  | cons name rest inductionHypothesis =>
    obtain ⟨first, others⟩ := List.forall_mem_cons.mp same
    rw [firstRepeatAfter?, firstRepeatAfter?]
    simp only [first]
    rw [inductionHypothesis]
    intro label later
    rw [List.mem_cons, List.mem_cons, others label later]

theorem firstRepeatAfter?_eq_none {seen names : List String} :
    firstRepeatAfter? seen names = none ↔ names.Nodup ∧ ∀ name ∈ names, name ∉ seen := by
  fun_induction firstRepeatAfter? seen names with
  | case1 => simp
  | case2 seen name rest repeated => simp [repeated]
  | case3 seen name rest fresh inductionHypothesis =>
    rw [inductionHypothesis, List.nodup_cons, List.forall_mem_cons]
    constructor
    · intro apart
      obtain ⟨distinct, unseen⟩ := apart
      refine ⟨⟨fun later => unseen name later List.mem_cons_self, distinct⟩, fresh, ?_⟩
      exact fun other later inSeen => unseen other later (List.mem_cons_of_mem _ inSeen)
    · intro unrepeated
      obtain ⟨⟨apart, distinct⟩, _, unseen⟩ := unrepeated
      refine ⟨distinct, ?_⟩
      intro other later inSeen
      rcases List.mem_cons.mp inSeen with rfl | earlier
      · exact apart later
      · exact unseen other later earlier

theorem firstRepeat?_eq_none {names : List String} :
    firstRepeat? names = none ↔ names.Nodup := by
  simp [firstRepeat?, firstRepeatAfter?_eq_none]

/-- Blocks are put behind one another and stay indexed, up to the first repeated name. -/
theorem Indexed.foldlM_add (indexed : g.Indexed) (blocks : List Block) :
    blocks.foldlM add g =
      match firstRepeatAfter? g.names (blocks.map Block.name) with
      | some name => .error (.repeatedLabel name)
      | none => .ok (reindex { g with blocks := g.blocks ++ blocks }) := by
  induction blocks generalizing g with
  | nil =>
    simp only [List.append_nil, indexed.reindex_eq]
    rfl
  | cons b rest inductionHypothesis =>
    rw [List.foldlM_cons, add, List.map_cons, firstRepeatAfter?]
    simp only [indexed.mem_index]
    split
    next => rfl
    next fresh =>
      have seen : firstRepeatAfter? (g.push b).names (rest.map Block.name) =
          firstRepeatAfter? (b.name :: g.names) (rest.map Block.name) :=
        firstRepeatAfter?_congr fun name _ => by simp [names_push, or_comm]
      have blocks : (g.push b).blocks ++ rest = g.blocks ++ b :: rest := List.append_cons .. |>.symm
      have step := inductionHypothesis (indexed.push fresh)
      rw [seen, blocks] at step
      exact step

end Repeated

end SsaForm.FlowGraph
