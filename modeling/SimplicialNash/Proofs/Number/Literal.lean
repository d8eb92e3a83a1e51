/-
  SimplicialNash.Proofs.Number.Literal
  ────────────────────────────────────
  **A rational that is written is read back.**

  What is written for a rational consists of digits, at most one sign and at most one
  slash (`isDigit_of_mem_rationalText`), so nothing of it is trimmed off, and neither a
  point nor an exponent is found in it.  A number with a denominator goes through the
  reader of fractions, one without through the reader of decimals
  (`readRational_rationalText`).

  The exponent of a decimal is a word of 64 bits, and a decimal is a fault if it is the
  least of them.  For every other exponent there are no words in what is read
  (`readDecimal_eq_ite`).
-/
import Mathlib.Algebra.Order.Ring.Rat
import SimplicialNash.Number.Literal
import SimplicialNash.Proofs.Text

namespace SimplicialNash.Number

open SimplicialNash.Text

/-! ## §1. The characters of a literal -/

section

variable {c : Char} {n : Nat} {z : Int} {q : Rat}

theorem isDigit_of_mem_digits (h : c ∈ digits n) : isDigit c = true :=
  List.all_eq_true.mp (all_isDigit_digits n) c h

/-- A digit is no other character. -/
theorem ne_of_isDigit {d : Char} (h : isDigit c = true) (hd : isDigit d = false) : c ≠ d := by
  rintro rfl
  rw [h] at hd
  cases hd

theorem not_isBlank_of_isDigit (h : isDigit c = true) : isBlank c = false := by
  simp only [isDigit, Bool.and_eq_true, decide_eq_true_eq] at h
  simp only [isBlank, Bool.or_eq_false_iff, Bool.and_eq_false_iff, beq_eq_false_iff_ne,
    decide_eq_false_iff_not]
  omega

theorem isDigit_of_mem_integerText (h : c ∈ integerText z) : isDigit c = true ∨ c = '-' := by
  unfold integerText at h
  split at h
  · rcases List.mem_cons.mp h with rfl | h
    · exact Or.inr rfl
    · exact Or.inl (isDigit_of_mem_digits h)
  · exact Or.inl (isDigit_of_mem_digits h)

/-- **What is written** consists of digits, a sign and a slash. -/
theorem isDigit_of_mem_rationalText (h : c ∈ rationalText q) :
    isDigit c = true ∨ c = '-' ∨ c = '/' := by
  unfold rationalText at h
  split at h
  · exact (isDigit_of_mem_integerText h).imp_right Or.inl
  · rcases List.mem_append.mp h with h | h
    · exact (isDigit_of_mem_integerText h).imp_right Or.inl
    rcases List.mem_cons.mp h with rfl | h
    · exact Or.inr (Or.inr rfl)
    · exact Or.inl (isDigit_of_mem_digits h)

theorem not_isBlank_of_mem_rationalText (h : c ∈ rationalText q) : isBlank c = false := by
  rcases isDigit_of_mem_rationalText h with hd | rfl | rfl
  · exact not_isBlank_of_isDigit hd
  · decide
  · decide

end

/-! ## §2. Integers -/

/-- Digits have no sign. -/
theorem splitSign_digits (n : Nat) : splitSign (digits n) = (false, digits n) := by
  cases hd : digits n with
  | nil => rfl
  | cons c cs =>
    have hc : isDigit c = true := isDigit_of_mem_digits (hd ▸ List.mem_cons_self)
    have hminus : c ≠ '-' := ne_of_isDigit hc (by decide)
    have hplus : c ≠ '+' := ne_of_isDigit hc (by decide)
    unfold splitSign
    split
    · next h => exact absurd (List.cons.inj h).1 hminus
    · next h => exact absurd (List.cons.inj h).1 hplus
    · rfl

/-- The sign of an integer is written in front. -/
theorem splitSign_integerText (z : Int) :
    splitSign (integerText z) = (decide (z < 0), digits z.natAbs) := by
  unfold integerText
  split
  · next h =>
    rw [decide_eq_true h]
    rfl
  · next h =>
    rw [decide_eq_false h]
    exact splitSign_digits _

theorem readGrouped?_digits (n : Nat) : readGrouped? (digits n) = some n := by
  have hall := all_isDigit_digits n
  have hvalue := digitsValue_digits n
  cases hd : digits n with
  | nil => exact absurd hd (digits_ne_nil n)
  | cons c cs =>
    rw [hd] at hall hvalue
    rw [List.all_cons, Bool.and_eq_true] at hall
    have hrest : cs.all (fun d => isDigit d || d == '_') = true :=
      List.all_eq_true.mpr fun d hmem => by rw [List.all_eq_true.mp hall.2 d hmem, Bool.true_or]
    rw [readGrouped?, hall.1, hrest, Bool.and_true, if_pos rfl,
      List.filter_eq_self.mpr (List.all_eq_true.mp hall.2), hvalue]

/-- An integer is read back. -/
theorem readInteger?_integerText (z : Int) : readInteger? (integerText z) = some z := by
  rw [readInteger?, splitSign_integerText]
  dsimp only
  rw [readGrouped?_digits]
  show some (if decide (z < 0) = true then -(z.natAbs : Int) else z.natAbs) = some z
  congr 1
  by_cases h : z < 0
  · rw [decide_eq_true h, if_pos rfl]
    omega
  · rw [decide_eq_false h, if_neg (by decide)]
    omega

/-- The digits of a number are those of the integer. -/
theorem integerText_natCast (n : Nat) : integerText n = digits n := by
  unfold integerText
  rw [if_neg (by omega), Int.natAbs_natCast]

/-! ## §3. Exponents -/

/-- **A decimal without its word**: the least exponent is a fault, and any other decimal is
read if its exponent is not too large. -/
theorem readDecimal_eq_ite {cs mantissa : List Char} {x : Int}
    (h : splitExponent? cs = some (mantissa, x)) :
    readDecimal cs = if x = Int64.minValue.toInt then .error .tooLarge
      else .ok (if maxExponent < x.natAbs then none else readMantissa? x mantissa) := by
  have hleast : Int64.minValue.toInt = -2 ^ 63 := by decide
  have hgreatest : Int64.maxValue.toInt = 2 ^ 63 - 1 := by decide
  unfold readDecimal splitWord? word?
  rw [h, Option.bind_some]
  dsimp only
  by_cases hrange : Int64.minValue.toInt ≤ x ∧ x ≤ Int64.maxValue.toInt
  · have hvalue : (Int64.ofInt x).toInt = x := Int64.toInt_ofInt_of_le (by omega) (by omega)
    have hword : Int64.ofInt x = Int64.minValue ↔ x = Int64.minValue.toInt := by
      rw [← Int64.toInt_inj, hvalue]
    rw [if_pos hrange]
    dsimp only [Option.map_some]
    unfold wordSize
    by_cases hx : x = Int64.minValue.toInt
    · rw [if_pos (hword.mpr hx), if_pos hx]
      rfl
    · rw [if_neg (mt hword.mp hx), if_neg hx, hvalue]
      rfl
  · -- a number that is no word is larger than any exponent that is read
    have hlarge : maxExponent < x.natAbs := by
      unfold maxExponent
      omega
    rw [if_neg hrange, if_neg (by omega), if_pos hlarge]
    rfl

/-! ## §4. Rationals -/

theorem trim_integerText (z : Int) : trim (integerText z) = integerText z := by
  refine trim_eq_self fun c hc => ?_
  rcases isDigit_of_mem_integerText hc with hd | rfl
  · exact not_isBlank_of_isDigit hd
  · decide

/-- A quotient of integers is read back. -/
theorem readFraction?_integerText {z d : Int} (hd : d ≠ 0) :
    readFraction? (integerText z) (integerText d) = some (Rat.divInt z d) := by
  unfold readFraction?
  rw [trim_integerText, trim_integerText, readInteger?_integerText, readInteger?_integerText]
  show (if d = 0 then none else some (Rat.divInt z d)) = _
  rw [if_neg hd]

/-- An integer is a decimal, too. -/
theorem readDecimal_integerText (z : Int) : readDecimal (integerText z) = .ok (some z) := by
  -- neither an exponent nor a point is found, so the exponent is zero
  have hplain : ∀ c ∈ integerText z, (c == 'e' || c == 'E') = false := by
    intro c hc
    rcases isDigit_of_mem_integerText hc with hd | rfl
    · have he : c ≠ 'e' := ne_of_isDigit hd (by decide)
      have hE : c ≠ 'E' := ne_of_isDigit hd (by decide)
      rw [beq_eq_false_iff_ne.mpr he, beq_eq_false_iff_ne.mpr hE]
      rfl
    · decide
  have hpoint : ∀ c ∈ digits z.natAbs, (c == '.') = false := fun c hc =>
    beq_eq_false_iff_ne.mpr (ne_of_isDigit (isDigit_of_mem_digits hc) (by decide))
  have hexponent : splitExponent? (integerText z) = some (integerText z, 0) := by
    unfold splitExponent?
    rw [(cutAt?_eq_none_iff _ _).mpr hplain]
  have hsplit : splitPoint (digits z.natAbs) = (digits z.natAbs, []) := by
    unfold splitPoint
    rw [(cutAt?_eq_none_iff _ _).mpr hpoint]
    rfl
  rw [readDecimal_eq_ite hexponent, if_neg (by decide),
    if_neg (show ¬ maxExponent < (0 : Int).natAbs from Nat.not_lt_zero _)]
  unfold readMantissa?
  simp only [Option.bind_eq_bind, Option.bind_some, splitSign_integerText, hsplit, List.append_nil,
    readDigits?_digits]
  have hscale : scaleByTen z.natAbs ((0 : Int) - ([] : List Char).length) = z.natAbs := by
    show ((z.natAbs * 1 : Nat) : Rat) = z.natAbs
    rw [Nat.mul_one]
  rw [hscale]
  congr 2
  by_cases h : z < 0
  · have hz : -(z.natAbs : Int) = z := by omega
    rw [decide_eq_true h, if_pos rfl]
    calc -(z.natAbs : Rat) = ((-(z.natAbs : Int) : Int) : Rat) := by
          rw [Int.cast_neg, Int.cast_natCast]
      _ = z := by rw [hz]
  · have hz : (z.natAbs : Int) = z := by omega
    rw [decide_eq_false h, if_neg (by decide)]
    calc (z.natAbs : Rat) = ((z.natAbs : Int) : Rat) := (Int.cast_natCast _).symm
      _ = z := by rw [hz]

/-- **A rational that is written is read back.** -/
theorem readRational_rationalText (q : Rat) : readRational (rationalText q) = .ok (some q) := by
  have htrim : trim (rationalText q) = rationalText q :=
    trim_eq_self fun c hc => not_isBlank_of_mem_rationalText hc
  have hslash : ∀ c ∈ integerText q.num, (c == '/') = false := by
    intro c hc
    rcases isDigit_of_mem_integerText hc with hd | rfl
    · exact beq_eq_false_iff_ne.mpr (ne_of_isDigit hd (by decide))
    · decide
  unfold readRational
  dsimp only
  rw [htrim]
  by_cases hden : q.den = 1
  · -- an integer has no slash
    have htext : rationalText q = integerText q.num := if_pos hden
    rw [htext, (cutAt?_eq_none_iff _ _).mpr hslash]
    dsimp only
    rw [readDecimal_integerText]
    exact congrArg (Except.ok ∘ some) (Rat.coe_int_num_of_den_eq_one hden)
  · have htext : rationalText q = integerText q.num ++ '/' :: integerText q.den := by
      rw [integerText_natCast]
      exact if_neg hden
    rw [htext, cutAt?_append _ _ _ _ hslash (by decide)]
    dsimp only
    rw [readFraction?_integerText (by have := q.den_pos; omega)]
    exact congrArg (Except.ok ∘ some) q.num_divInt_den

theorem readRational?_rationalText (q : Rat) : readRational? (rationalText q) = some q :=
  readRational?_eq_some_iff.mpr (readRational_rationalText q)

end SimplicialNash.Number
