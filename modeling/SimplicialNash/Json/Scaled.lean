/-
  SimplicialNash.Json.Scaled
  ──────────────────────────
  Numbers of JSON texts as binary64 numbers.

  The digits of a number are collected in a 64-bit significand as long as they
  fit; the digits after that count for their place only.  The significand is
  rounded to a binary64 number, and that number is multiplied or divided by a
  power of ten, which is rounded too.  So the result may differ from the
  nearest number by a unit or two in the last place.  A number that is written
  as an integer and fits is rounded once.
-/
import SimplicialNash.Json.Token
import SimplicialNash.Number.Binary64

namespace SimplicialNash.Json

open SimplicialNash.Number

/-! ## §1. Scaling -/

/-- The binary64 number nearest to a power of ten. -/
def powerOfTen (k : Nat) : Binary64 := Binary64.ofQuotient false (tenTo k) 1

/-- The rounded product of two finite numbers that are not negative. -/
def timesPower (f : Binary64) (k : Nat) : Binary64 :=
  match f.toRat?, (powerOfTen k).toRat? with
  | some a, some b => Binary64.ofRat (a * b)
  | _, _ => f

/-- The rounded quotient of two finite numbers that are not negative. -/
def overPower (f : Binary64) (k : Nat) : Binary64 :=
  match f.toRat?, (powerOfTen k).toRat? with
  | some a, some b => Binary64.ofRat (a / b)
  | _, _ => f

/-- The largest power of ten that is a finite number. -/
def maxPower : Nat := 308

/-- A number times a power of ten; none if it is beyond all finite numbers.  A
small power is split into steps, after a few of which nothing is left. -/
def scale? : (steps : Nat) → Binary64 → Int → Option Binary64
  | 0, f, _ => some f
  | steps + 1, f, e =>
    if e.natAbs ≤ maxPower then
      if 0 ≤ e then
        let product := timesPower f e.toNat
        if product.toRat?.isSome then some product else none
      else some (overPower f e.natAbs)
    else if f.toRat? = some 0 then some f
    else if 0 ≤ e then none
    else scale? steps (overPower f maxPower) (e + maxPower)

/-! ## §2. Significands -/

/-- The significand collected so far, and the exponent that belongs to it. -/
structure Collected where
  significand : Nat
  exponent : Int

/-- Whether the significand has room for another digit. -/
def Collected.fits (c : Collected) (digit : Char) : Bool :=
  10 * c.significand + digitValue digit < UInt64.size

/-- Digits before the point: those that do not fit raise the exponent. -/
def Collected.whole : Collected → List Char → Collected
  | c, [] => c
  | c, d :: rest =>
    if c.fits d then Collected.whole ⟨10 * c.significand + digitValue d, c.exponent⟩ rest
    else ⟨c.significand, c.exponent + (d :: rest).length⟩

/-- Digits after the point: those that fit lower the exponent. -/
def Collected.fraction : Collected → List Char → Collected
  | c, [] => c
  | c, d :: rest =>
    if c.fits d then
      Collected.fraction ⟨10 * c.significand + digitValue d, c.exponent - 1⟩ rest
    else c

/-- The largest exponent that is taken as it is written. -/
def maxWrittenExponent : Nat := 2147483647

/-- The magnitude of a number, if it is finite. -/
def Numeral.magnitude? (n : Numeral) : Option Binary64 :=
  let whole := Collected.whole ⟨0, 0⟩ n.whole
  let c := match n.fraction with
    | none => whole
    | some ds => whole.fraction ds
  let f := Binary64.ofQuotient false c.significand 1
  match n.exponent with
  | none => scale? 8 f c.exponent
  | some (negative, ds) =>
    let e := digitsValue ds
    if maxWrittenExponent < e then
      if c.significand ≠ 0 ∧ !negative then none else some (Binary64.ofQuotient false 0 1)
    else scale? 8 f (if negative then c.exponent - e else c.exponent + e)

/-- A number as a binary64 number, if it is finite. -/
def Numeral.toBinary64? (n : Numeral) : Option Binary64 :=
  n.magnitude?.map fun f =>
    if n.negative then ⟨f.bits ||| 0x8000000000000000⟩ else f

/-- A number that is written as an integer without minus sign. -/
def Numeral.toNat? (n : Numeral) : Option Nat :=
  if n.isInteger && !n.negative then some (digitsValue n.whole) else none

end SimplicialNash.Json
