/-
  SimplicialNash.Number.Binary64
  ──────────────────────────────
  IEEE 754 binary64 numbers as bit patterns with an exact meaning.

  The solver computes with rationals only.  Binary64 numbers occur at its
  edges: the tolerance and the time limit are given as such, and decimal
  output shows the binary64 number nearest to a weight.  No operation of the
  machine is used: a number is its 64 bits, `view` says what they denote, and
  `ofRat` rounds a rational to the nearest number.

  Main definitions: `Binary64.view`, `Binary64.toRat?`, `Binary64.ofRat`.
-/
import SimplicialNash.Number.Power
import SimplicialNash.Number.Rounding

namespace SimplicialNash.Number

/-! ## §1. Bits and what they denote -/

/-- A binary64 number, given by its bits. -/
structure Binary64 where
  /-- Sign, eleven bits of exponent, fifty-two bits of fraction. -/
  bits : UInt64
deriving DecidableEq, Repr, Inhabited

/-- What a binary64 number denotes.  A finite number is
`significand * 2 ^ exponent`, negated if so marked; zero has a sign. -/
inductive Binary64.View where
  | nan
  | infinite (negative : Bool)
  | finite (negative : Bool) (significand : Nat) (exponent : Int)
deriving DecidableEq, Repr

namespace Binary64

/-- The exponent of the smallest positive numbers. -/
def minExponent : Int := -1074

/-- The bits of positive infinity; those of larger exponent fields are taken. -/
def infinityBits : Nat := 0x7ff0000000000000

/-- The bit that marks a negative number. -/
def signBit : Nat := 0x8000000000000000

/-- What the bits denote. -/
def view (x : Binary64) : View :=
  let n := x.bits.toNat
  let negative := decide (signBit ≤ n)
  let field : Nat := n / twoTo 52 % twoTo 11
  let fraction := n % twoTo 52
  if field = 2047 then
    if fraction = 0 then .infinite negative else .nan
  else if field = 0 then .finite negative fraction minExponent
  else .finite negative (twoTo 52 + fraction) (minExponent + ((field : Int) - 1))

/-- `m * 2 ^ e` for an exponent of either sign. -/
def scaleByTwo (m : Nat) (e : Int) : Rat :=
  if 0 ≤ e then ((m * twoTo e.toNat : Nat) : Rat) else mkRat m (twoTo e.natAbs)

/-- The rational that a finite number denotes. -/
def toRat? (x : Binary64) : Option Rat :=
  match x.view with
  | .finite negative m e => some (if negative then -scaleByTwo m e else scaleByTwo m e)
  | _ => none

/-! ## §2. Rounding to the nearest number -/

/-- The largest `k` with `2 ^ k ≤ n / d`, for positive `n` and `d`. -/
def floorLog2 (n d : Nat) : Int :=
  let k : Int := (n.log2 : Int) - (d.log2 : Int)
  if (if 0 ≤ k then d * twoTo k.toNat ≤ n else d ≤ n * twoTo k.natAbs) then k else k - 1

/-- The bits, without sign, of the number nearest to `n / d`: of two equally
near ones that with an even significand, infinity beyond the largest.  Since a
carry out of the significand goes into the exponent field, the sum of the two
fields is right also when the significand rounds up to `2 ^ 53`. -/
def magnitudeBits (n d : Nat) : Nat :=
  if n = 0 then 0
  else
    let e := max (floorLog2 n d - 52) minExponent
    let m := if 0 ≤ e then divNearest .toEven n (d * twoTo e.toNat)
      else divNearest .toEven (n * twoTo e.natAbs) d
    min ((e - minExponent).toNat * twoTo 52 + m) infinityBits

/-- The number with the given sign whose magnitude is nearest to `n / d`. -/
def ofQuotient (negative : Bool) (n d : Nat) : Binary64 :=
  ⟨UInt64.ofNat (magnitudeBits n d + if negative then signBit else 0)⟩

/-- The number nearest to a rational.  What is too small to have one keeps its
sign; zero is positive. -/
def ofRat (q : Rat) : Binary64 := ofQuotient (q < 0) q.num.natAbs q.den

/-! ## §3. Named numbers -/

/-- Positive infinity, or negative infinity. -/
def infinity (negative : Bool) : Binary64 :=
  ⟨UInt64.ofNat (infinityBits + if negative then signBit else 0)⟩

/-- The quiet number that is no number, with the given sign bit. -/
def notANumber (negative : Bool) : Binary64 :=
  ⟨UInt64.ofNat (infinityBits + twoTo 51 + if negative then signBit else 0)⟩

end Binary64

end SimplicialNash.Number
