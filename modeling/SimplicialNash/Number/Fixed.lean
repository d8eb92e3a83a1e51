/-
  SimplicialNash.Number.Fixed
  ───────────────────────────
  Numbers with a fixed count of decimals.

  A rational is shown through the binary64 number nearest to it: that
  number's exact value is rounded to the wanted count of decimals, a half
  going to the even digit.  A minus sign stays even if all digits are zero.
-/
import SimplicialNash.Number.Digits
import SimplicialNash.Number.Binary64

namespace SimplicialNash.Number

/-- The digits of `n`, the last `decimals` of them after a point. -/
def pointed (decimals n : Nat) : List Char :=
  if decimals = 0 then digits n
  else digits (n / tenTo decimals) ++ '.' :: digitsPadded decimals (n % tenTo decimals)

/-- The value of a binary64 number with a fixed count of decimals. -/
def Binary64.fixedText (decimals : Nat) (x : Binary64) : List Char :=
  let signed (negative : Bool) (cs : List Char) := if negative then '-' :: cs else cs
  match x.view with
  | .nan => ['N', 'a', 'N']
  | .infinite negative => signed negative ['i', 'n', 'f']
  | .finite negative m e =>
    let scaled := m * tenTo decimals
    let n := if 0 ≤ e then scaled * twoTo e.toNat
      else divNearest .toEven scaled (twoTo e.natAbs)
    signed negative (pointed decimals n)

/-- A rational with a fixed count of decimals. -/
def fixedText (decimals : Nat) (q : Rat) : List Char :=
  (Binary64.ofRat q).fixedText decimals

end SimplicialNash.Number
