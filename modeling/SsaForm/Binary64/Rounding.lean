import SsaForm.Binary64.Basic

/-!
# Rounding a decimal

A decimal `digits · 10 ^ scale` is read as the nearest double; a value halfway between
two goes to the even one, and a value beyond the largest becomes infinite.
-/

namespace SsaForm.Binary64

/-- The quotient rounded to the nearest integer, a half going to the even neighbour. -/
def roundQuotient (numerator denominator : Nat) : Nat :=
  let floor := numerator / denominator
  let rest := 2 * (numerator % denominator)
  if rest < denominator then floor
  else if denominator < rest then floor + 1
  else floor + floor % 2

/-- The greatest `e` with `2 ^ e ≤ numerator / denominator`. -/
def binaryLog (numerator denominator : Nat) : Int :=
  let guess : Int := (Nat.log2 numerator : Int) - Nat.log2 denominator
  if denominator <<< guess.toNat ≤ numerator <<< (-guess).toNat then guess else guess - 1

/-- The magnitude nearest to a positive quotient. The significand is rounded at the
exponent that gives it fifty-three bits, or at the least exponent; a significand rounded
up to the next power of two carries into the exponent. -/
def nearestMagnitude (numerator denominator : Nat) : Nat :=
  let exponent := max (-1074) (binaryLog numerator denominator - 52)
  let significand :=
    roundQuotient (numerator <<< (-exponent).toNat) (denominator <<< exponent.toNat)
  min infinityBits ((exponent + 1074).toNat * fractions + significand)

/-- The double nearest to `digits · 10 ^ scale`. Decimals far outside the range are
settled by their number of digits alone. -/
def ofDecimal (negative : Bool) (digits : Nat) (scale : Int) : Binary64 :=
  let order := scale + (Nat.toDigits 10 digits).length
  if digits = 0 ∨ order < -330 then
    ofMagnitude negative 0
  else if 310 < order then
    ofMagnitude negative infinityBits
  else
    ofMagnitude negative
      (nearestMagnitude (digits * Nat.pow 10 scale.toNat) (Nat.pow 10 (-scale).toNat))

end SsaForm.Binary64
