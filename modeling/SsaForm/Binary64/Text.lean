import SsaForm.Binary64.Shortest

/-!
# Decimal text of doubles

Numbers are written with their shortest digits in positional notation, without an
exponent and without a fraction that is zero.
-/

namespace SsaForm.Binary64

def Decimal.positional (d : Decimal) : String :=
  let digits := Nat.toDigits 10 d.digits
  let places := (-d.scale).toNat
  let padded := List.replicate (places + 1 - digits.length) '0' ++ digits
  let whole := padded.take (padded.length - places) ++ List.replicate d.scale.toNat '0'
  let fraction := padded.drop (padded.length - places)
  String.ofList (if fraction.isEmpty then whole else whole ++ '.' :: fraction)

/-- The text of a number. A zero keeps its sign; what is not a number has none. -/
def text (x : Binary64) : String :=
  let sign := if x.negative then "-" else ""
  match x.size with
  | .finite value => sign ++ value.shortest.positional
  | .infinite => sign ++ "inf"
  | .nan => "NaN"

end SsaForm.Binary64
