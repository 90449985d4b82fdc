import SsaForm.Binary64.Basic

/-!
# Shortest decimals

The reals that round to a double form an interval: it reaches halfway to both neighbours,
and contains its ends if the significand is even. Of the decimals in the interval, the
shortest is one on the coarsest power of ten that has any, and the nearest to the value
among those; of two equally near ones it is the greater.
-/

namespace SsaForm.Binary64

structure Decimal where
  digits : Nat
  scale : Int
deriving DecidableEq

namespace Scaled

/-- Whether the neighbour below is only half as far away as the one above. -/
def narrowBelow (x : Scaled) : Bool :=
  decide (x.significand = fractions ∧ -1074 < x.exponent)

/-- `factor` quarters of a unit of `x`, measured in units of `10 ^ scale` over the common
denominator `gridUnit`. -/
def measured (x : Scaled) (factor : Nat) (scale : Int) : Nat :=
  (factor <<< (x.exponent - 2).toNat) * Nat.pow 10 (-scale).toNat

def gridUnit (x : Scaled) (scale : Int) : Nat :=
  Nat.pow 10 scale.toNat <<< (2 - x.exponent).toNat

/-- Whether a decimal lies among the reals that round to `x`. -/
def readsBack (x : Scaled) (d : Decimal) : Bool :=
  let candidate := d.digits * x.gridUnit d.scale
  let low := x.measured (4 * x.significand - if x.narrowBelow then 1 else 2) d.scale
  let high := x.measured (4 * x.significand + 2) d.scale
  if x.significand % 2 = 0 then
    decide (low ≤ candidate ∧ candidate ≤ high)
  else
    decide (low < candidate ∧ candidate < high)

def candidate? (x : Scaled) (scale : Int) : Option Decimal :=
  let value := x.measured (4 * x.significand) scale
  let unit := x.gridUnit scale
  let below : Decimal := ⟨value / unit, scale⟩
  let above : Decimal := ⟨value / unit + 1, scale⟩
  let nearer := if 2 * (value % unit) < unit then below else above
  let farther := if 2 * (value % unit) < unit then above else below
  if x.readsBack nearer then some nearer
  else if x.readsBack farther then some farther
  else none

/-- Tries ever finer scales. The last resort writes the value out in full. -/
def searchScale (x : Scaled) : Nat → Int → Decimal
  | 0, _ =>
    ⟨x.significand * Nat.pow 2 x.exponent.toNat * Nat.pow 5 (-x.exponent).toNat,
      min 0 x.exponent⟩
  | tries + 1, scale => (x.candidate? scale).getD (x.searchScale tries (scale - 1))

def leadingScale (x : Scaled) : Int :=
  ((Nat.log2 x.significand : Int) + x.exponent + 1) * 30103 / 100000 + 1

def shortest (x : Scaled) : Decimal :=
  if x.significand = 0 then ⟨0, 0⟩ else x.searchScale 20 x.leadingScale

end Scaled

end SsaForm.Binary64
