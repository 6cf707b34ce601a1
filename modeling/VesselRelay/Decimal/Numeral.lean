import VesselRelay.Binary64.Parts
import VesselRelay.Decimal.Shortest

/-!
Reading decimal numerals: the value of a row of digits, and the double nearest to digits with an
exponent.
-/
namespace VesselRelay.Decimal

def digitValue (c : Char) : Nat := c.toNat - '0'.toNat

/-- The value of a row of decimal digits; the empty row is zero. -/
def ofDigits (ds : List Char) : Nat :=
  ds.foldl (fun value d => 10 * value + digitValue d) 0

/-- The exact value of a numeral as a ratio. Beyond the range in which any double other than zero
and infinity can be meant, a ratio of the same fate stands for it. -/
def Scientific.ratio (x : Scientific) : Nat × Nat :=
  if x.digits = 0 then (0, 1)
  else if 400 < x.exponent then (10 ^ 400, 1)
  else if x.exponent + (Nat.log2 x.digits + 1) < -400 then (1, 10 ^ 400)
  else perTen x.digits 1 (-x.exponent)

/-- The double nearest to a decimal number; infinity where it is beyond all of them. -/
def Scientific.nearest (x : Scientific) : Float :=
  let (n, d) := x.ratio
  Binary64.nearest n d

end VesselRelay.Decimal
