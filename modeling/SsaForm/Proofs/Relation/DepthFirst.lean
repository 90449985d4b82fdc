import Mathlib.Data.List.Nodup
import SsaForm.Proofs.Relation.Reachability

/-!
# Depth-first search

The walk with its stack of visits lists what the recursive search lists: a node behind all
that the search from its successors finds. The recursion tells how the order fits the edges.
An edge leads to a node that is listed earlier, unless steps of that kind lead back from
there to the node that the edge comes from.
-/

namespace SsaForm

/-- One node stands in a list before another. -/
def Precedes {κ : Type} (order : List κ) (first second : κ) : Prop :=
  [first, second].Sublist order

namespace Precedes

variable {κ : Type} {order : List κ} {first second third : κ}

theorem left_mem (precedes : Precedes order first second) : first ∈ order :=
  precedes.subset List.mem_cons_self

theorem right_mem (precedes : Precedes order first second) : second ∈ order :=
  precedes.subset (List.mem_cons_of_mem _ List.mem_cons_self)

theorem mono {longer : List κ} (precedes : Precedes order first second)
    (part : order.Sublist longer) : Precedes longer first second :=
  List.Sublist.trans precedes part

theorem append {earlier later : List κ} (left : first ∈ earlier) (right : second ∈ later) :
    Precedes (earlier ++ later) first second :=
  (List.singleton_sublist.mpr left).append (List.singleton_sublist.mpr right)

theorem cons_iff {head : κ} :
    Precedes (head :: order) first second ↔
      Precedes order first second ∨ first = head ∧ second ∈ order := by
  rw [Precedes, List.cons_sublist_cons', List.singleton_sublist, Precedes]

theorem reverse (precedes : Precedes order first second) :
    Precedes order.reverse second first :=
  List.reverse_sublist.mpr precedes

theorem trans (distinct : order.Nodup) (left : Precedes order first second)
    (right : Precedes order second third) : Precedes order first third := by
  induction order with
  | nil => cases left
  | cons head rest inductionHypothesis =>
    obtain ⟨unlisted, others⟩ := List.nodup_cons.mp distinct
    rcases cons_iff.mp right with behind | ⟨rfl, _⟩
    · rcases cons_iff.mp left with both | ⟨rfl, _⟩
      · exact cons_iff.mpr (.inl (inductionHypothesis others both behind))
      · exact cons_iff.mpr (.inr ⟨rfl, behind.right_mem⟩)
    · -- The node in the middle comes first and would be listed once more.
      rcases cons_iff.mp left with both | ⟨_, again⟩
      · exact absurd both.right_mem unlisted
      · exact absurd again unlisted

theorem irrefl (distinct : order.Nodup) : ¬ Precedes order first first :=
  List.nodup_iff_sublist.mp distinct first

theorem asymm (distinct : order.Nodup) (left : Precedes order first second) :
    ¬ Precedes order second first :=
  fun right => irrefl distinct (left.trans distinct right)

theorem append_cons_iff {before after : List κ} {node : κ}
    (distinct : (before ++ node :: after).Nodup) :
    Precedes (before ++ node :: after) first node ↔ first ∈ before := by
  refine ⟨?_, fun early => .append early List.mem_cons_self⟩
  intro precedes
  rcases List.mem_append.mp precedes.left_mem with early | late
  · exact early
  · rcases List.mem_cons.mp late with rfl | behind
    · exact absurd precedes (irrefl distinct)
    · have follows : Precedes (before ++ node :: after) node first :=
        Precedes.mono (cons_iff.mpr (.inr ⟨rfl, behind⟩)) (List.sublist_append_right _ _)
      exact absurd follows (precedes.asymm distinct)

/-- The last node stands before no other. -/
theorem not_of_getLast? (distinct : order.Nodup) (last : order.getLast? = some first) :
    ¬ Precedes order first second := by
  obtain ⟨before, rfl⟩ := List.getLast?_eq_some_iff.mp last
  intro precedes
  rcases List.mem_append.mp precedes.right_mem with early | same
  · exact precedes.asymm distinct (.append early List.mem_cons_self)
  · cases List.mem_singleton.mp same
    exact irrefl distinct precedes

end Precedes

namespace Relation

variable {κ : Type} [Ord κ] [Std.TransOrd κ]

/-- What depth-first search from some nodes in turn comes to: the nodes in the order in which it
leaves them, and those that are still unseen. A node that has been seen is passed over. Any
other node is left behind what the search from its successors finds, in ascending order. -/
inductive Searches (r : Relation κ) : KeySet κ → List κ → List κ → KeySet κ → Prop where
  | done {unseen : KeySet κ} : Searches r unseen [] [] unseen
  | enter {unseen middle rest : KeySet κ} {node : κ} {others below behind : List κ}
    (fresh : node ∈ unseen)
    (descent : Searches r (unseen.erase node) (r.image node).toList below middle)
    (onward : Searches r middle others behind rest) :
    Searches r unseen (node :: others) (below ++ node :: behind) rest
  | skip {unseen rest : KeySet κ} {node : κ} {others order : List κ} (seen : node ∉ unseen)
    (onward : Searches r unseen others order rest) : Searches r unseen (node :: others) order rest

theorem Searches.rest_subset {r : Relation κ} {unseen rest : KeySet κ} {nodes order : List κ}
    (searches : Searches r unseen nodes order rest) : ∀ k, k ∈ rest → k ∈ unseen := by
  induction searches with
  | done => exact fun _ found => found
  | enter _ _ _ descentHypothesis onwardHypothesis =>
    exact fun k found =>
      Std.ExtTreeSet.mem_of_mem_erase (descentHypothesis k (onwardHypothesis k found))
  | skip _ _ inductionHypothesis => exact inductionHypothesis

/-- A node is not seen again by the search below it. -/
theorem Searches.not_mem_rest_of_erase {r : Relation κ} {unseen rest : KeySet κ} {node : κ}
    {nodes order : List κ} (searches : Searches r (unseen.erase node) nodes order rest) :
    node ∉ rest :=
  fun found => by simpa using searches.rest_subset node found

/-- The outcome of a search, with the way in which it came about. -/
structure Searched (r : Relation κ) (unseen : KeySet κ) (nodes : List κ) where
  order : List κ
  rest : KeySet κ
  searches : Searches r unseen nodes order rest

section Search

/-- Recursive depth-first search. -/
def search (r : Relation κ) (unseen : KeySet κ) : (nodes : List κ) → Searched r unseen nodes
  | [] => ⟨[], unseen, .done⟩
  | node :: others =>
    if fresh : node ∈ unseen then
      let below := search r (unseen.erase node) (r.image node).toList
      let behind := search r below.rest others
      ⟨below.order ++ node :: behind.order, behind.rest,
        .enter fresh below.searches behind.searches⟩
    else
      let onward := search r unseen others
      ⟨onward.order, onward.rest, .skip fresh onward.searches⟩
termination_by nodes => (unseen.size, nodes.length)
decreasing_by
  · exact Prod.Lex.left _ _ (KeySet.size_erase_lt fresh)
  · have smaller := KeySet.size_le_of_subset below.searches.rest_subset
    exact Prod.Lex.left _ _ (Nat.lt_of_le_of_lt smaller (KeySet.size_erase_lt fresh))
  · exact Prod.Lex.right _ (Nat.lt_succ_self _)

variable [Std.LawfulEqOrd κ]

namespace Searches

variable {r : Relation κ} {unseen rest : KeySet κ} {nodes order : List κ}

/-- The walk runs the visits to the listed nodes as the search does. Nodes that are left out of
the visits since they have been entered would have been passed over. -/
theorem walk_eq (searches : Searches r unseen nodes order rest) {larger : KeySet κ}
    (unentered : ∀ k, k ∈ unseen → k ∈ larger) (stack : List (Visit κ)) :
    walk r unseen ((nodes.filter fun k => decide (k ∈ larger)).map .enter ++ stack) =
      order ++ walk r rest stack := by
  induction searches generalizing larger stack with
  | done => rfl
  | @enter unseen middle rest node others below behind fresh descent onward descentHypothesis
      onwardHypothesis =>
    have smaller : ∀ k, k ∈ middle → k ∈ larger := fun k found =>
      unentered k (Std.ExtTreeSet.mem_of_mem_erase (descent.rest_subset k found))
    rw [List.filter_cons_of_pos (by simpa using unentered node fresh), List.map_cons,
      List.cons_append, walk, if_pos fresh, visits, descentHypothesis (fun _ => id), walk,
      onwardHypothesis smaller, List.append_assoc, List.cons_append]
  | @skip unseen rest node others order seen onward inductionHypothesis =>
    rw [← inductionHypothesis unentered, List.filter_cons]
    split
    next => rw [List.map_cons, List.cons_append, walk, if_neg seen]
    next => rfl

theorem mem_order_iff (searches : Searches r unseen nodes order rest) {k : κ} :
    k ∈ order ↔ k ∈ unseen ∧ k ∉ rest := by
  induction searches with
  | done => simp
  | @enter unseen middle rest node others below behind fresh descent onward descentHypothesis
      onwardHypothesis =>
    rw [List.mem_append, List.mem_cons, descentHypothesis, onwardHypothesis]
    by_cases same : k = node
    · subst same
      have entered : k ∉ rest := fun found =>
        descent.not_mem_rest_of_erase (onward.rest_subset k found)
      simp [fresh, entered]
    · have erased : k ∈ unseen.erase node ↔ k ∈ unseen :=
        ⟨Std.ExtTreeSet.mem_of_mem_erase, fun found => KeySet.mem_erase_of_ne found same⟩
      have fromMiddle := descent.rest_subset k
      have fromRest := onward.rest_subset k
      grind
  | skip _ _ inductionHypothesis => exact inductionHypothesis

theorem nodup_order (searches : Searches r unseen nodes order rest) : order.Nodup := by
  induction searches with
  | done => exact List.nodup_nil
  | @enter unseen middle rest node others below behind fresh descent onward descentHypothesis
      onwardHypothesis =>
    -- What the descent finds is seen after it, and what comes behind is still unseen then.
    have apart : ∀ k ∈ below, k ∉ behind := fun k found again =>
      (descent.mem_order_iff.mp found).2 (onward.mem_order_iff.mp again).1
    have notBelow : node ∉ below := fun found => by simpa using (descent.mem_order_iff.mp found).1
    have notBehind : node ∉ behind := fun found =>
      descent.not_mem_rest_of_erase (onward.mem_order_iff.mp found).1
    refine List.nodup_append.mpr
      ⟨descentHypothesis, List.nodup_cons.mpr ⟨notBehind, onwardHypothesis⟩, ?_⟩
    intro k found other listed
    rintro rfl
    rcases List.mem_cons.mp listed with rfl | again
    · exact notBelow found
    · exact apart k found again
  | skip _ _ inductionHypothesis => exact inductionHypothesis

omit [Std.LawfulEqOrd κ] in
/-- A search from one node leaves this node last. -/
theorem getLast?_order {start : κ} (searches : Searches r unseen [start] order rest)
    (fresh : start ∈ unseen) : order.getLast? = some start := by
  cases searches with
  | enter _ _ onward =>
    cases onward
    exact List.getLast?_concat
  | skip seen _ => exact absurd fresh seen

omit [Std.LawfulEqOrd κ] in
/-- No listed node is left unseen. -/
theorem not_mem_rest (searches : Searches r unseen nodes order rest) :
    ∀ k ∈ nodes, k ∉ rest := by
  induction searches with
  | done => simp
  | @enter unseen middle rest node others below behind fresh descent onward _ onwardHypothesis =>
    intro k listed
    rcases List.mem_cons.mp listed with rfl | later
    · exact fun found => descent.not_mem_rest_of_erase (onward.rest_subset k found)
    · exact onwardHypothesis k later
  | @skip unseen rest node others order seen onward inductionHypothesis =>
    intro k listed
    rcases List.mem_cons.mp listed with rfl | later
    · exact fun found => seen (onward.rest_subset k found)
    · exact inductionHypothesis k later

/-- No successor of a node that was left is left unseen. -/
theorem image_not_mem_rest (searches : Searches r unseen nodes order rest) {source target : κ}
    (left : source ∈ order) (related : target ∈ r.image source) : target ∉ rest := by
  induction searches with
  | done => cases left
  | @enter unseen middle rest node others below behind fresh descent onward descentHypothesis
      onwardHypothesis =>
    rcases List.mem_append.mp left with found | found
    · exact fun still => descentHypothesis found (onward.rest_subset target still)
    · rcases List.mem_cons.mp found with rfl | later
      · have seen := descent.not_mem_rest target (Std.ExtTreeSet.mem_toList.mpr related)
        exact fun still => seen (onward.rest_subset target still)
      · exact onwardHypothesis later
  | skip _ _ inductionHypothesis => exact inductionHypothesis left

end Searches

end Search

/-- Steps lead down from `top` to a node, each of them to a node that is listed earlier. -/
inductive Descends (r : Relation κ) (order : List κ) (top : κ) : κ → Prop where
  | refl : Descends r order top top
  | step {node next : κ} (above : Descends r order top node) (related : next ∈ r.image node)
    (earlier : Precedes order next node) : Descends r order top next

namespace Descends

variable {r : Relation κ} {order : List κ} {top node : κ}

theorem mono {longer : List κ} (descends : Descends r order top node)
    (part : order.Sublist longer) : Descends r longer top node := by
  induction descends with
  | refl => exact .refl
  | step _ related earlier inductionHypothesis =>
    exact inductionHypothesis.step related (earlier.mono part)

theorem cons {second : κ} (related : second ∈ r.image top) (earlier : Precedes order second top)
    (descends : Descends r order second node) : Descends r order top node := by
  induction descends with
  | refl => exact .step .refl related earlier
  | step _ onward before inductionHypothesis => exact inductionHypothesis.step onward before

theorem top_mem (descends : Descends r order top node) (listed : node ∈ order) :
    top ∈ order := by
  induction descends with
  | refl => exact listed
  | step _ _ earlier inductionHypothesis => exact inductionHypothesis earlier.right_mem

theorem reaches (descends : Descends r order top node) : r.Reaches top node := by
  induction descends with
  | refl => exact .refl r top
  | step _ related _ inductionHypothesis => exact inductionHypothesis.step related

theorem eq_or_precedes (distinct : order.Nodup) (descends : Descends r order top node) :
    node = top ∨ Precedes order node top := by
  induction descends with
  | refl => exact .inl rfl
  | step _ _ earlier inductionHypothesis =>
    rcases inductionHypothesis with rfl | before
    · exact .inr earlier
    · exact .inr (earlier.trans distinct before)

/-- What lies below a successor of a node lies below the node, if the node is listed behind. -/
theorem of_successor [Std.LawfulEqOrd κ] {below behind : List κ}
    (found : ∃ child ∈ (r.image top).toList, Descends r below child node)
    (listed : node ∈ below) : Descends r (below ++ top :: behind) top node := by
  obtain ⟨child, related, descends⟩ := found
  have earlier : Precedes (below ++ top :: behind) child top :=
    .append (descends.top_mem listed) List.mem_cons_self
  exact (descends.mono (List.sublist_append_left _ _)).cons
    (Std.ExtTreeSet.mem_toList.mp related) earlier

end Descends

namespace Searches

variable [Std.LawfulEqOrd κ] {r : Relation κ} {unseen rest : KeySet κ} {nodes order : List κ}

omit [Ord κ] [Std.TransOrd κ] [Std.LawfulEqOrd κ] in
theorem sublist_append_cons {below behind : List κ} {node : κ} :
    behind.Sublist (below ++ node :: behind) :=
  (List.sublist_cons_self node behind).trans (List.sublist_append_right _ _)

/-- A search leaves a node below one of the nodes that it started from. -/
theorem exists_descends (searches : Searches r unseen nodes order rest) {k : κ}
    (left : k ∈ order) : ∃ start ∈ nodes, Descends r order start k := by
  induction searches with
  | done => cases left
  | @enter unseen middle rest node others below behind fresh descent onward descentHypothesis
      onwardHypothesis =>
    have tail : behind.Sublist (below ++ node :: behind) := sublist_append_cons
    rcases List.mem_append.mp left with found | found
    · exact ⟨node, List.mem_cons_self, .of_successor (descentHypothesis found) found⟩
    · rcases List.mem_cons.mp found with rfl | later
      · exact ⟨k, List.mem_cons_self, .refl⟩
      · obtain ⟨start, listed, descends⟩ := onwardHypothesis later
        exact ⟨start, List.mem_cons_of_mem _ listed, descends.mono tail⟩
  | skip _ _ inductionHypothesis =>
    obtain ⟨start, listed, descends⟩ := inductionHypothesis left
    exact ⟨start, List.mem_cons_of_mem _ listed, descends⟩

/-- An edge between nodes that a search leaves goes to the earlier one, or back up to a node
that the other one lies below. -/
theorem precedes_or_descends (searches : Searches r unseen nodes order rest) {source target : κ}
    (sourceLeft : source ∈ order) (targetLeft : target ∈ order)
    (related : target ∈ r.image source) :
    Precedes order target source ∨ Descends r order target source := by
  induction searches with
  | done => cases sourceLeft
  | @enter unseen middle rest node others below behind fresh descent onward descentHypothesis
      onwardHypothesis =>
    have part : below.Sublist (below ++ node :: behind) := List.sublist_append_left _ _
    have tail : behind.Sublist (below ++ node :: behind) := sublist_append_cons
    have seen : ∀ k, k ∈ behind → k ∈ middle := fun k later => (onward.mem_order_iff.mp later).1
    rw [List.mem_append, List.mem_cons] at sourceLeft targetLeft
    rcases sourceLeft with fromBelow | rfl | fromBehind
    · rcases targetLeft with toBelow | rfl | toBehind
      · exact (descentHypothesis fromBelow toBelow).imp (·.mono part) (·.mono part)
      · exact .inr (.of_successor (descent.exists_descends fromBelow) fromBelow)
      · exact absurd (seen target toBehind) (descent.image_not_mem_rest fromBelow related)
    · rcases targetLeft with toBelow | rfl | toBehind
      · exact .inl (.append toBelow List.mem_cons_self)
      · exact .inr .refl
      · exact absurd (seen target toBehind)
          (descent.not_mem_rest target (Std.ExtTreeSet.mem_toList.mpr related))
    · rcases targetLeft with toBelow | rfl | toBehind
      · exact .inl (.append toBelow (List.mem_cons_of_mem _ fromBehind))
      · exact .inl (Precedes.mono (Precedes.cons_iff.mpr (.inr ⟨rfl, fromBehind⟩))
          (List.sublist_append_right _ _))
      · exact (onwardHypothesis fromBehind toBehind).imp (·.mono tail) (·.mono tail)
  | skip _ _ inductionHypothesis => exact inductionHypothesis sourceLeft targetLeft

end Searches

/-- What a loop over a stack of visits comes to, and in how many rounds, with the nodes that it
has entered and those that it has left so far. Each round takes a visit from the stack. The
first visit to a node puts those to its successors on the stack, in ascending order and without
the nodes that have been entered, with the node's leave behind them. -/
inductive Unwinds (r : Relation κ) :
    KeySet κ → List (Visit κ) → List κ → Nat → List κ → Prop where
  | done {entered : KeySet κ} {left : List κ} : Unwinds r entered [] left 0 left
  | leave {entered : KeySet κ} {node : κ} {stack : List (Visit κ)} {left result : List κ}
    {rounds : Nat} (others : Unwinds r entered stack (left ++ [node]) rounds result) :
    Unwinds r entered (.leave node :: stack) left (rounds + 1) result
  | skip {entered : KeySet κ} {node : κ} {stack : List (Visit κ)} {left result : List κ}
    {rounds : Nat} (again : node ∈ entered)
    (others : Unwinds r entered stack left rounds result) :
    Unwinds r entered (.enter node :: stack) left (rounds + 1) result
  | enter {entered : KeySet κ} {node : κ} {stack : List (Visit κ)} {left result : List κ}
    {rounds : Nat} (first : node ∉ entered)
    (others : Unwinds r (entered.insert node)
      (((r.image node).toList.filter fun next => decide (next ∉ entered.insert node)).map .enter ++
        .leave node :: stack) left rounds result) :
    Unwinds r entered (.enter node :: stack) left (rounds + 1) result

variable [Std.LawfulEqOrd κ]

/-- Where the unseen nodes are those that are not entered, the walk puts the same visits on the
stack as the loop. -/
theorem visits_eq_of_complement {r : Relation κ} {unseen entered : KeySet κ}
    (complement : ∀ k ∈ r.carrier, k ∈ unseen ↔ k ∉ entered) (node : κ) :
    r.visits unseen node =
      ((r.image node).toList.filter fun next => decide (next ∉ entered)).map .enter := by
  rw [visits]
  congr 1
  apply List.filter_congr
  intro next related
  have known : next ∈ r.carrier :=
    mem_carrier.mpr (.inr ⟨node, Std.ExtTreeSet.mem_toList.mp related⟩)
  exact decide_eq_decide.mpr (complement next known)

/-- The loop ends with what the walk lists: a node is unseen as long as it is not entered, and
the number of rounds that are still to come is bounded by the walk's measure. -/
theorem exists_unwinds {r : Relation κ} {unseen entered : KeySet κ} {stack : List (Visit κ)}
    (complement : ∀ k ∈ r.carrier, k ∈ unseen ↔ k ∉ entered)
    (mentioned : ∀ k, .enter k ∈ stack → k ∈ r.carrier) (left : List κ) :
    ∃ rounds ≤ unseen.size * (r.carrier.size + 2) + stack.length,
      Unwinds r entered stack left rounds (left ++ walk r unseen stack) := by
  fun_induction walk r unseen stack generalizing entered left with
  | case1 unseen =>
    rw [List.append_nil]
    exact ⟨0, Nat.zero_le _, .done⟩
  | case2 unseen node stack inductionHypothesis =>
    obtain ⟨rounds, bound, unwinds⟩ := inductionHypothesis complement
      (fun k waiting => mentioned k (List.mem_cons_of_mem _ waiting)) (left ++ [node])
    rw [List.append_assoc] at unwinds
    exact ⟨rounds + 1, by rw [List.length_cons]; omega, .leave unwinds⟩
  | case3 unseen node stack fresh inductionHypothesis =>
    have inside : node ∈ r.carrier := mentioned node List.mem_cons_self
    have complement' : ∀ k ∈ r.carrier, k ∈ unseen.erase node ↔ k ∉ entered.insert node := by
      intro k known
      simp only [Std.ExtTreeSet.mem_erase, Std.ExtTreeSet.mem_insert,
        Std.LawfulEqOrd.compare_eq_iff_eq, complement k known, not_or, ne_eq]
    have mentioned' : ∀ k, .enter k ∈ r.visits (unseen.erase node) node ++ .leave node :: stack →
        k ∈ r.carrier := by
      intro k waiting
      rcases List.mem_append.mp waiting with child | later
      · exact mem_carrier.mpr (.inr ⟨node, (enter_mem_visits.mp child).1⟩)
      · exact mentioned k (List.mem_cons_of_mem _ (by simpa using later))
    obtain ⟨rounds, bound, unwinds⟩ := inductionHypothesis complement' mentioned' left
    have smaller := KeySet.size_erase_lt fresh
    have room := Nat.mul_le_mul_right (r.carrier.size + 2) (Nat.succ_le_of_lt smaller)
    have visitsBound := length_visits_le r (unseen.erase node) node
    refine ⟨rounds + 1, ?bound, .enter ((complement node inside).mp fresh) ?onward⟩
    case bound =>
      simp only [Nat.succ_mul, List.length_append, List.length_cons] at room bound ⊢
      omega
    case onward =>
      rw [← visits_eq_of_complement complement']
      exact unwinds
  | case4 unseen node stack seen inductionHypothesis =>
    obtain ⟨rounds, bound, unwinds⟩ := inductionHypothesis complement
      (fun k waiting => mentioned k (List.mem_cons_of_mem _ waiting)) left
    have again : node ∈ entered := by
      have known := complement node (mentioned node List.mem_cons_self)
      exact Classical.not_not.mp fun first => seen (known.mpr first)
    exact ⟨rounds + 1, by rw [List.length_cons]; omega, .skip again unwinds⟩

section Postorder

variable {r : Relation κ} {start : κ}

theorem postorder_eq_search (key : start ∈ r) :
    r.postorder start = (search r r.carrier [start]).order := by
  have mentioned : start ∈ r.carrier := mem_carrier.mpr (.inl key)
  have searched := (search r r.carrier [start]).searches.walk_eq (fun _ => id) []
  rw [List.filter_cons_of_pos (by simpa using mentioned)] at searched
  rw [postorder, if_pos key]
  simpa [walk] using searched

theorem nodup_postorder : (r.postorder start).Nodup := by
  by_cases key : start ∈ r
  · rw [postorder_eq_search key]
    exact (search r r.carrier [start]).searches.nodup_order
  · rw [postorder, if_neg key]
    exact List.nodup_nil

/-- The start comes last. -/
theorem getLast?_postorder (key : start ∈ r) : (r.postorder start).getLast? = some start := by
  rw [postorder_eq_search key]
  exact (search r r.carrier [start]).searches.getLast?_order (mem_carrier.mpr (.inl key))

theorem not_precedes_start {node : κ} : ¬ Precedes (r.postorder start) start node := by
  intro precedes
  have key := (mem_postorder.mp precedes.left_mem).1
  exact Precedes.not_of_getLast? nodup_postorder (getLast?_postorder key) precedes

theorem descends_postorder {node : κ} (listed : node ∈ r.postorder start) :
    Descends r (r.postorder start) start node := by
  have key := (mem_postorder.mp listed).1
  rw [postorder_eq_search key] at listed ⊢
  obtain ⟨_, same, descends⟩ := (search r r.carrier [start]).searches.exists_descends listed
  rwa [List.mem_singleton.mp same] at descends

/-- A node other than the start has a predecessor above it. -/
theorem exists_above {node : κ} (listed : node ∈ r.postorder start) (inner : node ≠ start) :
    ∃ parent, Descends r (r.postorder start) start parent ∧ node ∈ r.image parent ∧
      Precedes (r.postorder start) node parent := by
  cases descends_postorder listed with
  | refl => exact absurd rfl inner
  | @step parent _ above related earlier => exact ⟨parent, above, related, earlier⟩

/-- Edges lead to nodes that are listed earlier, or back up. -/
theorem precedes_or_descends_postorder {source target : κ} (listed : source ∈ r.postorder start)
    (related : target ∈ r.image source) :
    Precedes (r.postorder start) target source ∨
      Descends r (r.postorder start) target source := by
  obtain ⟨key, reached⟩ := mem_postorder.mp listed
  have listed' : target ∈ r.postorder start := mem_postorder.mpr ⟨key, reached.step related⟩
  rw [postorder_eq_search key] at listed listed' ⊢
  exact (search r r.carrier [start]).searches.precedes_or_descends listed listed' related

end Postorder

/-- The order of the walk is that of depth-first search. The loop over the stack of visits ends,
with what the recursive search from the start lists, successors in ascending order and each
node behind its successors. No node is listed twice, what is listed is what the start reaches,
and the start comes last. An edge leads to a node that is listed earlier, and later in the
order read backwards, unless its target leads back to its source. -/
theorem postorder_is_depthFirst (r : Relation κ) (start : κ) (key : start ∈ r) :
    (∃ rounds ≤ r.carrier.size * (r.carrier.size + 2) + 1,
      Unwinds r ∅ [.enter start] [] rounds (r.postorder start)) ∧
    r.postorder start = (search r r.carrier [start]).order ∧
    (r.postorder start).Nodup ∧
    (∀ k, k ∈ r.postorder start ↔ r.Reaches start k) ∧
    (r.postorder start).getLast? = some start ∧
    ∀ source ∈ r.postorder start, ∀ target ∈ r.image source, ¬ r.Reaches target source →
      Precedes (r.postorder start) target source ∧
        Precedes (r.reversePostorder start) source target := by
  refine ⟨?_, postorder_eq_search key, nodup_postorder, ?_, getLast?_postorder key, ?_⟩
  · have mentioned : ∀ k, .enter k ∈ [Visit.enter start] → k ∈ r.carrier := by
      intro k waiting
      cases List.mem_singleton.mp waiting
      exact mem_carrier.mpr (.inl key)
    have complement : ∀ k ∈ r.carrier, k ∈ r.carrier ↔ k ∉ (∅ : KeySet κ) :=
      fun k known => iff_of_true known Std.ExtTreeSet.not_mem_empty
    obtain ⟨rounds, bound, unwinds⟩ := exists_unwinds complement mentioned []
    rw [List.nil_append] at unwinds
    rw [postorder, if_pos key]
    exact ⟨rounds, bound, unwinds⟩
  · exact fun k => mem_postorder.trans (and_iff_right key)
  · intro source listed target related oneWay
    have earlier := (precedes_or_descends_postorder listed related).resolve_right
      fun descends => oneWay descends.reaches
    exact ⟨earlier, earlier.reverse⟩

/-- A node below two others that both lie on a cycle with it, and a node that is no key. -/
def doubling : Relation Nat :=
  .relating [(0, [1, 2]), (1, [2, 3]), (2, [0, 1])]

/-- The node waits twice and is left below the second of its predecessors. The edge that leaves
the cycle leads to the earlier node. -/
theorem postorder_is_depthFirst_doubling :
    0 ∈ doubling ∧ (search doubling doubling.carrier [0]).order = [2, 3, 1, 0] ∧
      (3 ∉ doubling ∧ doubling.Reaches 0 3) ∧
      ¬ doubling.Reaches 3 1 ∧ Precedes (doubling.reversePostorder 0) 1 3 := by
  have key : 0 ∈ doubling := by decide +kernel
  have leaf : 3 ∉ doubling := by decide +kernel
  have listed : doubling.postorder 0 = [2, 3, 1, 0] := by decide +kernel
  have oneWay : ¬ doubling.Reaches 3 1 := fun back => leaf (back.mem_start (by decide))
  obtain ⟨_, searched, _, reached, _, edges⟩ := postorder_is_depthFirst doubling 0 key
  refine ⟨key, searched ▸ listed, ⟨leaf, (reached 3).mp (by simp [listed])⟩, oneWay, ?_⟩
  exact (edges 1 (by simp [listed]) 3 (by decide +kernel) oneWay).2

end Relation

end SsaForm
