/-
  SimplicialNash.Number.Nearest
  ─────────────────────────────
  Decimal text as the nearest binary64 number.

      text     := ['+' | '-'] (word | decimal)
      word     := inf | infinity | nan                    (in either case)
      decimal  := digit* ['.' digit*] [('e' | 'E') ['+' | '-'] digit+]

  A decimal has a digit before or after its point.  Its value is rounded to
  the nearest number; beyond the largest that is infinity.
-/
import SimplicialNash.Number.Binary64
import SimplicialNash.Number.Literal

namespace SimplicialNash.Number

open SimplicialNash.Text

namespace Binary64

/-- The number nearest to the integer that digits denote times a power of ten.
Outside the range of all numbers, which ends well before ten to the power of
four hundred either way, no power is computed. -/
def ofDigits (negative : Bool) (ds : List Char) (exponent : Int) : Binary64 :=
  let n := digitsValue ds
  let leading := exponent + ((ds.dropWhile (· == '0')).length : Int)
  if n = 0 ∨ leading < -400 then ofQuotient negative 0 1
  else if 400 < leading then infinity negative
  else if 0 ≤ exponent then ofQuotient negative (n * tenTo exponent.toNat) 1
  else ofQuotient negative n (tenTo exponent.natAbs)

/-- A word for what is no finite number, in either case. -/
def readWord? (negative : Bool) (cs : List Char) : Option Binary64 :=
  let word := String.ofList (cs.map Char.toLower)
  if word == "inf" || word == "infinity" then some (infinity negative)
  else if word == "nan" then some (notANumber negative)
  else none

/-- An unsigned decimal. -/
def readDecimal? (negative : Bool) (cs : List Char) : Option Binary64 := do
  let (mantissa, exponent) ← splitExponent? cs
  let (whole, fraction) := splitPoint mantissa
  let _ ← readDigits? (whole ++ fraction)
  return ofDigits negative (whole ++ fraction) (exponent - fraction.length)

/-- The binary64 number nearest to what a text denotes. -/
def read? (cs : List Char) : Option Binary64 :=
  let (negative, unsigned) := splitSign cs
  (readWord? negative unsigned).or (readDecimal? negative unsigned)

end Binary64

end SimplicialNash.Number
