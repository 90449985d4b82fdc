/-!
# Double-precision numbers

A number is its sixty-four bits: a sign, eleven bits of exponent and fifty-two of
fraction. All arithmetic on its value is exact arithmetic on integers.
-/

namespace SsaForm

/-- A double-precision number, told apart from every other by its bits. -/
structure Binary64 where
  bits : UInt64
deriving DecidableEq

namespace Binary64

/-- The number of fractions for one exponent, `2 ^ 52`. -/
def fractions : Nat :=
  0x10000000000000

def negative (x : Binary64) : Bool :=
  decide (0x8000000000000000 ≤ x.bits.toNat)

def magnitude (x : Binary64) : Nat :=
  x.bits.toNat % 0x8000000000000000

/-- The bits of infinity; greater magnitudes are not numbers. -/
def infinityBits : Nat :=
  0x7FF0000000000000

def ofMagnitude (negative : Bool) (magnitude : Nat) : Binary64 :=
  ⟨.ofNat (if negative then 0x8000000000000000 + magnitude else magnitude)⟩

/-- An absolute value `significand · 2 ^ exponent`. -/
structure Scaled where
  significand : Nat
  exponent : Int
deriving DecidableEq

inductive Size where
  | finite (value : Scaled)
  | infinite
  | nan

/-- The value of a magnitude. The least exponent has no leading one. -/
def size (x : Binary64) : Size :=
  let exponent := x.magnitude / fractions
  let fraction := x.magnitude % fractions
  if x.magnitude < infinityBits then
    if exponent = 0 then
      .finite ⟨fraction, -1074⟩
    else
      .finite ⟨fractions + fraction, (exponent : Int) - 1075⟩
  else if x.magnitude = infinityBits then
    .infinite
  else
    .nan

/-- Equality of values: zeros of both signs are equal, and what is not a number equals
nothing, not even itself. -/
def sameValue (x y : Binary64) : Bool :=
  decide (x.magnitude ≤ infinityBits) && decide (y.magnitude ≤ infinityBits) &&
    (decide (x = y) || decide (x.magnitude = 0 ∧ y.magnitude = 0))

end Binary64

end SsaForm
