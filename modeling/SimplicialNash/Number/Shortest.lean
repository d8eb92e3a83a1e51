/-
  SimplicialNash.Number.Shortest
  ──────────────────────────────
  The fewest decimal digits that identify a binary64 number.

  The reals that round to a finite non-zero number form an interval around
  it, whose ends belong to it exactly if the significand is even.  On the
  decimal grids `10 ^ p`, from coarse to fine, the two grid points next to the
  number are tried; the first grid with a point in the interval gives the
  digits.  If both points are in it the nearer one is taken.  A grid point in
  the interval implies that one of the two neighbours is in it too, so no
  shorter text reads back.
-/
import SimplicialNash.Number.Digits
import SimplicialNash.Number.Binary64

namespace SimplicialNash.Number

/-! ## §1. Digits -/

/-- The decimal number `significand * 10 ^ exponent`. -/
structure Decimal where
  significand : Nat
  exponent : Int
deriving DecidableEq, Repr

/-- The reals that round to a number, over a common denominator: those from
`low / den` to `high / den`, around the number `mid / den` itself. -/
structure RoundingInterval where
  low : Nat
  mid : Nat
  high : Nat
  den : Nat
  /-- Whether the two ends belong to it. -/
  closed : Bool

namespace RoundingInterval

/-- The interval of `m * 2 ^ e`.  Below a power of two the numbers are twice as
dense, except among the smallest ones. -/
def ofFinite (m : Nat) (e : Int) : RoundingInterval :=
  let below := if m = twoTo 52 ∧ Binary64.minExponent < e then 1 else 2
  let up := twoTo e.toNat
  { low := (4 * m - below) * up
    mid := 4 * m * up
    high := (4 * m + 2) * up
    den := 4 * twoTo (-e).toNat
    closed := m % 2 == 0 }

/-- Whether the rational `n / d` is in the interval. -/
def contains (i : RoundingInterval) (n d : Nat) : Bool :=
  let below := i.low * d
  let here := n * i.den
  let above := i.high * d
  if i.closed then decide (below ≤ here) && decide (here ≤ above)
  else decide (below < here) && decide (here < above)

/-- The point of the grid `10 ^ p` in the interval that is nearest to its
number, as a multiple of `10 ^ p`. -/
def gridPoint? (tie : Tie) (i : RoundingInterval) (p : Int) : Option Nat :=
  let up := tenTo p.toNat
  let down := tenTo (-p).toNat
  let q := i.mid * down / (i.den * up)
  let isIn (k : Nat) := i.contains (k * up) down
  match isIn q, isIn (q + 1) with
  | true, true => some (divNearest tie (i.mid * down) (i.den * up))
  | true, false => some q
  | false, true => some (q + 1)
  | false, false => none

end RoundingInterval

/-- The exponents of the decimal grids, from coarse to fine. -/
def gridExponents : List Int := (List.range 700).map fun (k : Nat) => 310 - (k : Int)

/-- The shortest decimal that rounds to `m * 2 ^ e`. -/
def shortest (tie : Tie) (m : Nat) (e : Int) : Decimal :=
  if m = 0 then ⟨0, 0⟩
  else
    let i := RoundingInterval.ofFinite m e
    let found := gridExponents.findSome? fun p => (i.gridPoint? tie p).map fun k => ⟨k, p⟩
    found.getD ⟨0, 0⟩

/-! ## §2. Text -/

/-- All digits of a decimal, without exponent. -/
def Decimal.positional (d : Decimal) : List Char :=
  if 0 ≤ d.exponent then digits (d.significand * tenTo d.exponent.toNat)
  else
    let places := d.exponent.natAbs
    digits (d.significand / tenTo places) ++ '.'
      :: digitsPadded places (d.significand % tenTo places)

/-- The exponent of a decimal's leading digit. -/
def Decimal.leadingExponent (d : Decimal) : Int :=
  d.exponent + ((digits d.significand).length - 1 : Nat)

/-- One digit, the other digits after a point, and the exponent with its sign. -/
def Decimal.scientific (d : Decimal) : List Char :=
  let e := d.leadingExponent
  let exponent := 'e' :: (if 0 ≤ e then '+' else '-') :: digits e.natAbs
  match digits d.significand with
  | first :: second :: rest => first :: '.' :: second :: rest ++ exponent
  | ds => ds ++ exponent

/-- The number as it stands in messages: the shortest digits, all of them
positional, and no point for a whole number.  A half goes up. -/
def Binary64.messageText (x : Binary64) : List Char :=
  let signed (negative : Bool) (cs : List Char) := if negative then '-' :: cs else cs
  match x.view with
  | .nan => ['N', 'a', 'N']
  | .infinite negative => signed negative ['i', 'n', 'f']
  | .finite negative m e => signed negative (shortest .up m e).positional

/-- The number as it stands in JSON: the shortest digits, positional with at
least one decimal while the leading digit's exponent is from -5 to 15, and
scientific otherwise.  A half goes to the even digit. -/
def Binary64.jsonText (x : Binary64) : List Char :=
  match x.view with
  | .finite negative m e =>
    let d := shortest .toEven m e
    let unsigned :=
      if m = 0 ∨ (-5 ≤ d.leadingExponent ∧ d.leadingExponent ≤ 15) then
        if 0 ≤ d.exponent then d.positional ++ ['.', '0'] else d.positional
      else d.scientific
    if negative then '-' :: unsigned else unsigned
  | _ => ['n', 'u', 'l', 'l']

end SimplicialNash.Number
