/-
  SimplicialNash.Number.Literal
  ─────────────────────────────
  Exact rational numbers as text.

  Three forms are read, all of them exactly: integers (`-3`), fractions
  (`2/3`) and decimals with an optional exponent (`0.125`, `1.5e-3`).  A
  rational is written in lowest terms, as an integer if it is one.

      literal   := blank* (fraction | decimal) blank*
      fraction  := integer blank* '/' blank* integer        (divisor not zero)
      integer   := ['+' | '-'] digit (digit | '_')*
      decimal   := ['+' | '-'] digit* ['.' digit*] [('e' | 'E') exponent]
      exponent  := ['+' | '-'] digit+                       (at most 4096 in size)

  A text with a slash is a fraction or nothing.  A decimal has a digit before
  or after its point.

  An exponent is read as a word of 64 bits, and its size is taken before the
  mantissa is looked at.  The least word has no size that is a word; a decimal
  with this exponent is a fault.  Main definitions: `readRational`,
  `rationalText`.
-/
import SimplicialNash.Fault
import SimplicialNash.Text.Blank
import SimplicialNash.Text.Lines
import SimplicialNash.Number.Digits
import SimplicialNash.Number.Power

namespace SimplicialNash.Number

open SimplicialNash.Text

/-! ## §1. Signs -/

/-- A sign in front of a text, as whether it is a minus, and what follows it.
A text without a sign is positive. -/
def splitSign : List Char → Bool × List Char
  | '-' :: rest => (true, rest)
  | '+' :: rest => (false, rest)
  | cs => (false, cs)

/-- Digits after an optional sign. -/
def readSigned? (cs : List Char) : Option Int :=
  let (negative, rest) := splitSign cs
  (readDigits? rest).map fun n => if negative then -(n : Int) else n

/-! ## §2. Fractions -/

/-- Digits that may be grouped by underscores, which count for nothing; the
first character is a digit. -/
def readGrouped? : List Char → Option Nat
  | [] => none
  | c :: rest =>
    if isDigit c && rest.all (fun d => isDigit d || d == '_') then
      some (digitsValue (c :: rest.filter isDigit))
    else none

/-- Grouped digits after an optional sign. -/
def readInteger? (cs : List Char) : Option Int :=
  let (negative, rest) := splitSign cs
  (readGrouped? rest).map fun n => if negative then -(n : Int) else n

/-- The quotient of two integers, of which the second is not zero. -/
def readFraction? (numerator denominator : List Char) : Option Rat := do
  let n ← readInteger? (trim numerator)
  let d ← readInteger? (trim denominator)
  if d = 0 then none else some (Rat.divInt n d)

/-! ## §3. Decimals -/

/-- The largest size of a decimal's exponent. -/
def maxExponent : Nat := 4096

/-- The mantissa and the exponent of a decimal; without a mark the exponent
is zero. -/
def splitExponent? (cs : List Char) : Option (List Char × Int) :=
  match cutAt? (fun c => c == 'e' || c == 'E') cs with
  | none => some (cs, 0)
  | some (mantissa, exponent) => (readSigned? exponent).map (mantissa, ·)

/-- The integer `n` times a power of ten. -/
def scaleByTen (n : Nat) (exponent : Int) : Rat :=
  if 0 ≤ exponent then ((n * tenTo exponent.toNat : Nat) : Rat)
  else mkRat n (tenTo exponent.natAbs)

/-- The parts of an unsigned mantissa before and after its point. -/
def splitPoint (cs : List Char) : List Char × List Char :=
  (cutAt? (· == '.') cs).getD (cs, [])

/-- The word of 64 bits with a value, if there is one. -/
def word? (x : Int) : Option Int64 :=
  if Int64.minValue.toInt ≤ x ∧ x ≤ Int64.maxValue.toInt then some (.ofInt x) else none

/-- The mantissa and the exponent of a decimal, the exponent as a word. -/
def splitWord? (cs : List Char) : Option (List Char × Int64) :=
  (splitExponent? cs).bind fun (mantissa, x) => (word? x).map (mantissa, ·)

/-- The size of a word.  It is a word itself but for the least one. -/
def wordSize (x : Int64) : Except Fault Nat :=
  if x = Int64.minValue then .error .tooLarge else .ok x.toInt.natAbs

/-- A mantissa with an exponent, read as the exact number that its digits
denote. -/
def readMantissa? (exponent : Int) (mantissa : List Char) : Option Rat := do
  let (negative, unsigned) := splitSign mantissa
  let (whole, fraction) := splitPoint unsigned
  let n ← readDigits? (whole ++ fraction)
  let magnitude := scaleByTen n (exponent - fraction.length)
  some (if negative then -magnitude else magnitude)

/-- A decimal, if the text is one. -/
def readDecimal (cs : List Char) : Except Fault (Option Rat) :=
  match splitWord? cs with
  | none => .ok none
  | some (mantissa, exponent) => do
    let size ← wordSize exponent
    return if maxExponent < size then none else readMantissa? exponent.toInt mantissa

/-! ## §4. Literals -/

/-- The rational number that a text denotes, if it denotes one. -/
def readRational (cs : List Char) : Except Fault (Option Rat) :=
  let body := trim cs
  match cutAt? (· == '/') body with
  | some (numerator, denominator) => .ok (readFraction? numerator denominator)
  | none => readDecimal body

/-- The rational number that a text denotes, where a fault counts for none. -/
def readRational? (cs : List Char) : Option Rat :=
  match readRational cs with
  | .ok answer => answer
  | .error _ => none

theorem readRational?_eq_some_iff {cs : List Char} {q : Rat} :
    readRational? cs = some q ↔ readRational cs = .ok (some q) := by
  unfold readRational?
  cases readRational cs <;> simp

/-- A rational in lowest terms: numerator, slash and denominator, or the
numerator alone if the denominator is one. -/
def rationalText (q : Rat) : List Char :=
  if q.den = 1 then integerText q.num
  else integerText q.num ++ '/' :: digits q.den

end SimplicialNash.Number
