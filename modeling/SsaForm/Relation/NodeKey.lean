import SsaForm.KeySet

/-!
# Node keys

A node of a graph is called by a number or by a name. Every number comes before every
name, numbers by value and names by code point.
-/

namespace SsaForm

inductive NodeKey where
  | number (value : Int)
  | name (text : String)
deriving DecidableEq

namespace NodeKey

/-- Numbers first, each kind in its own order. -/
def order : NodeKey → NodeKey → Ordering
  | .number a, .number b => compare a b
  | .number _, .name _ => .lt
  | .name _, .number _ => .gt
  | .name a, .name b => compare a b

instance : Ord NodeKey := ⟨order⟩

theorem order_swap : (a b : NodeKey) → order a b = (order b a).swap
  | .number a, .number b => show compare a b = (compare b a).swap from Std.OrientedCmp.eq_swap
  | .number _, .name _ => rfl
  | .name _, .number _ => rfl
  | .name a, .name b => show compare a b = (compare b a).swap from Std.OrientedCmp.eq_swap

theorem order_isLE_trans : {a b c : NodeKey} →
    (order a b).isLE → (order b c).isLE → (order a c).isLE
  | .number a, .number b, .number c, first, second =>
    @Std.TransCmp.isLE_trans Int compare _ a b c first second
  | .number _, _, .name _, _, _ => rfl
  | .name a, .name b, .name c, first, second =>
    @Std.TransCmp.isLE_trans String compare _ a b c first second

theorem order_self : (a : NodeKey) → order a a = .eq
  | .number a => show compare a a = .eq from Std.ReflCmp.compare_self
  | .name a => show compare a a = .eq from Std.ReflCmp.compare_self

theorem eq_of_order_eq : {a b : NodeKey} → order a b = .eq → a = b
  | .number _, .number _, same => congrArg number (Std.LawfulEqOrd.eq_of_compare same)
  | .name _, .name _, same => congrArg name (Std.LawfulEqOrd.eq_of_compare same)

instance : Std.TransOrd NodeKey where
  eq_swap := order_swap _ _
  isLE_trans := order_isLE_trans

instance : Std.LawfulEqOrd NodeKey where
  compare_self := order_self _
  eq_of_compare := eq_of_order_eq

end NodeKey

end SsaForm
