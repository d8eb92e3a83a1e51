/-
  SimplicialNash.Number.Digits
  ────────────────────────────
  Decimal digits of natural numbers.

  Main statement: the digits written for a number have that number as their
  value (`digitsValue_digits`).
-/

namespace SimplicialNash.Number

/-! ## §1. Reading -/

/-- The characters `0` to `9`, and no digits of other scripts. -/
def isDigit (c : Char) : Bool := 48 ≤ c.toNat && c.toNat ≤ 57

/-- The value of a decimal digit. -/
def digitValue (c : Char) : Nat := c.toNat - 48

/-- The number that a list of digits denotes, the first digit weighing most. -/
def digitsValue (cs : List Char) : Nat := cs.foldl (fun n c => 10 * n + digitValue c) 0

/-- A non-empty list of digits and nothing else, as the number it denotes. -/
def readDigits? (cs : List Char) : Option Nat :=
  if cs ≠ [] ∧ cs.all isDigit then some (digitsValue cs) else none

/-! ## §2. Writing -/

/-- The decimal digits of a number, without leading zeros; `0` for zero. -/
def digits (n : Nat) : List Char := Nat.toDigits 10 n

/-- The digits of a number, with zeros in front up to the given width. -/
def digitsPadded (width n : Nat) : List Char :=
  let ds := digits n
  List.replicate (width - ds.length) '0' ++ ds

/-- The decimal digits of an integer, after a minus sign if it is negative. -/
def integerText (z : Int) : List Char :=
  if z < 0 then '-' :: digits z.natAbs else digits z.natAbs

/-- The decimal digits of a number, as a string. -/
def numeral (n : Nat) : String := String.ofList (digits n)

/-! ## §3. Writing, then reading -/

theorem digitsValue_append (a b : List Char) :
    digitsValue (a ++ b) = b.foldl (fun n c => 10 * n + digitValue c) (digitsValue a) := by
  simp [digitsValue]

theorem digitsValue_concat (a : List Char) (c : Char) :
    digitsValue (a ++ [c]) = 10 * digitsValue a + digitValue c := by
  simp [digitsValue_append]

theorem isDigit_digitChar {d : Nat} (h : d < 10) : isDigit d.digitChar = true := by
  match d, h with
  | 0, _ | 1, _ | 2, _ | 3, _ | 4, _ | 5, _ | 6, _ | 7, _ | 8, _ | 9, _ => decide

theorem digitValue_digitChar {d : Nat} (h : d < 10) : digitValue d.digitChar = d := by
  match d, h with
  | 0, _ | 1, _ | 2, _ | 3, _ | 4, _ | 5, _ | 6, _ | 7, _ | 8, _ | 9, _ => decide

theorem digits_of_lt_ten {n : Nat} (h : n < 10) : digits n = [n.digitChar] :=
  Nat.toDigits_of_lt_base h

/-- The last digit is the remainder by ten; the others are those of the quotient. -/
theorem digits_of_ten_le {n : Nat} (h : 10 ≤ n) :
    digits n = digits (n / 10) ++ [(n % 10).digitChar] :=
  Nat.toDigits_of_base_le (by decide) h

theorem digits_ne_nil (n : Nat) : digits n ≠ [] := by
  by_cases h : n < 10
  · simp [digits_of_lt_ten h]
  · simp [digits_of_ten_le (Nat.le_of_not_lt h)]

theorem all_isDigit_digits (n : Nat) : (digits n).all isDigit = true := by
  induction n using Nat.strongRecOn with
  | _ n ih =>
    by_cases h : n < 10
    · simp [digits_of_lt_ten h, isDigit_digitChar h]
    · have h10 := Nat.le_of_not_lt h
      rw [digits_of_ten_le h10, List.all_append, ih (n / 10) (by omega)]
      simp [isDigit_digitChar (Nat.mod_lt n (by decide))]

/-- The digits written for a number denote that number. -/
@[simp] theorem digitsValue_digits (n : Nat) : digitsValue (digits n) = n := by
  induction n using Nat.strongRecOn with
  | _ n ih =>
    by_cases h : n < 10
    · simp [digits_of_lt_ten h, digitsValue, digitValue_digitChar h]
    · have h10 := Nat.le_of_not_lt h
      rw [digits_of_ten_le h10, digitsValue_concat, ih (n / 10) (by omega),
        digitValue_digitChar (Nat.mod_lt n (by decide))]
      omega

/-- Reading the digits written for a number gives the number back. -/
@[simp] theorem readDigits?_digits (n : Nat) : readDigits? (digits n) = some n := by
  rw [readDigits?, if_pos ⟨digits_ne_nil n, all_isDigit_digits n⟩, digitsValue_digits]

end SimplicialNash.Number
