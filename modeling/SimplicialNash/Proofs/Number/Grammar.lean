/-
  SimplicialNash.Proofs.Number.Grammar
  ────────────────────────────────────
  **Which texts denote rational numbers, and which number each of them denotes.**

  The grammar is one of relations between texts and numbers: signs (`IsSign`), integers
  whose digits may be grouped (`IsInteger`), fractions (`IsFraction`), and decimals made of
  a sign, digits, a point with digits, and an exponent (`IsDecimal`).

  The reader takes a text apart at the first slash, the first mark of an exponent, the
  sign and the first point.  None of these characters can stand in a part before it, so
  the parts found are the ones that the grammar put together (`splitSign_append`,
  `splitExponent?_eq_some_iff`, `splitPoint_eq_iff`).  Readers of signed numbers differ in
  what they read after the sign only (`readAfterSign?_eq_some_iff`).

  One exponent is neither read nor refused: the least word of 64 bits, in front of which
  anything may stand (`HasLeastExponent`).

  Main statement: `readRational?_grammar`.
-/
import Mathlib.Data.Nat.Cast.Basic
import SimplicialNash.Proofs.Number.Literal

namespace SimplicialNash.Number

open SimplicialNash.Text

variable {c : Char} {cs rest sign text whole fraction mantissa : List Char} {n : Nat}
  {z x : Int} {σ : Int} {v : Rat}

/-! ## §1. The grammar -/

/-- A sign or none, and the factor that it stands for. -/
inductive IsSign : List Char → Int → Prop
  | none : IsSign [] 1
  | plus : IsSign ['+'] 1
  | minus : IsSign ['-'] (-1)

/-- Digits and nothing else. -/
def AreDigits (cs : List Char) : Prop := ∀ c ∈ cs, isDigit c = true

instance : Decidable (AreDigits cs) := List.decidableBAll (isDigit · = true) cs

/-- An integer: a sign, then digits and underscores, of which the first is a digit. -/
inductive IsInteger : List Char → Int → Prop
  | intro {sign rest : List Char} {σ : Int} {c : Char} (hsign : IsSign sign σ)
      (hc : isDigit c = true) (hrest : ∀ d ∈ rest, isDigit d = true ∨ d = '_') :
      IsInteger (sign ++ c :: rest) (σ * digitsValue ((c :: rest).filter isDigit))

/-- A fraction: two integers around the first slash, the second of which is not zero.
Blanks may stand around both. -/
inductive IsFraction : List Char → Rat → Prop
  | intro {numerator denominator : List Char} {n d : Int} (hslash : '/' ∉ numerator)
      (hn : IsInteger (trim numerator) n) (hd : IsInteger (trim denominator) d) (h0 : d ≠ 0) :
      IsFraction (numerator ++ '/' :: denominator) (n / d)

/-- What stands after the whole digits: nothing, or a point and more digits. -/
inductive IsPointed : List Char → List Char → Prop
  | none : IsPointed [] []
  | point (digits : List Char) : IsPointed ('.' :: digits) digits

/-- An exponent: a mark and an integer, or nothing for zero. -/
inductive IsExponent : List Char → Int → Prop
  | none : IsExponent [] 0
  | mark {c : Char} {sign digits : List Char} {σ : Int} (hc : c = 'e' ∨ c = 'E')
      (hsign : IsSign sign σ) (hne : digits ≠ []) (hdigits : AreDigits digits) :
      IsExponent (c :: sign ++ digits) (σ * digitsValue digits)

/-- A decimal: a sign, digits with a point among them or none, at least one digit in all,
and an exponent that is not too large. -/
inductive IsDecimal : List Char → Rat → Prop
  | intro {sign whole pointed fraction exponent : List Char} {σ x : Int} (hsign : IsSign sign σ)
      (hwhole : AreDigits whole) (hpointed : IsPointed pointed fraction)
      (hfraction : AreDigits fraction) (hne : whole ++ fraction ≠ [])
      (hexponent : IsExponent exponent x) (hx : |x| ≤ 4096) :
      IsDecimal (sign ++ whole ++ pointed ++ exponent)
        (σ * digitsValue (whole ++ fraction) * 10 ^ (x - fraction.length))

/-- A text with the least word of 64 bits as the exponent after its first mark. -/
def HasLeastExponent (cs : List Char) : Prop :=
  ∃ mantissa exponent, cs = mantissa ++ exponent ∧ IsExponent exponent (-2 ^ 63)
    ∧ ∀ c ∈ mantissa, c ≠ 'e' ∧ c ≠ 'E'

/-! ## §2. Signs -/

/-- A text without a sign in front. -/
def IsUnsigned (cs : List Char) : Prop := ∀ c ∈ cs.head?, c ≠ '+' ∧ c ≠ '-'

theorem isUnsigned_of_isDigit (hc : isDigit c = true) (cs : List Char) : IsUnsigned (c :: cs) := by
  intro d hd
  obtain rfl : c = d := Option.some.inj hd
  exact ⟨ne_of_isDigit hc (by decide), ne_of_isDigit hc (by decide)⟩

/-- **The sign is split off** where it was put. -/
theorem splitSign_append (hsign : IsSign sign σ) (h : IsUnsigned rest) :
    splitSign (sign ++ rest) = (decide (σ < 0), rest) := by
  cases hsign with
  | plus => rfl
  | minus => rfl
  | none =>
    show splitSign rest = (false, rest)
    unfold splitSign
    split
    · exact absurd rfl (h '-' rfl).2
    · exact absurd rfl (h '+' rfl).1
    · rfl

/-- Every text is a sign and what follows it. -/
theorem exists_isSign (cs : List Char) : ∃ sign σ rest, IsSign sign σ ∧ cs = sign ++ rest
    ∧ splitSign cs = (decide (σ < 0), rest) := by
  unfold splitSign
  split
  · next rest => exact ⟨['-'], -1, rest, .minus, rfl, rfl⟩
  · next rest => exact ⟨['+'], 1, rest, .plus, rfl, rfl⟩
  · exact ⟨[], 1, cs, .none, rfl, rfl⟩

/-- To change the sign of a number is to multiply it by the factor of the sign. -/
theorem IsSign.ite_eq_mul {R : Type} [Ring R] (h : IsSign sign σ) (r : R) :
    (if decide (σ < 0) = true then -r else r) = σ * r := by
  cases h <;> simp

/-- A number after a sign. -/
def readAfterSign? (read : List Char → Option Nat) (cs : List Char) : Option Int :=
  let (negative, rest) := splitSign cs
  (read rest).map fun n : Nat => if negative then -(n : Int) else (n : Int)

theorem readInteger?_eq (cs : List Char) : readInteger? cs = readAfterSign? readGrouped? cs := by
  unfold readInteger? readAfterSign?
  dsimp only
  cases readGrouped? (splitSign cs).2 <;> rfl

theorem readSigned?_eq (cs : List Char) : readSigned? cs = readAfterSign? readDigits? cs := by
  unfold readSigned? readAfterSign?
  dsimp only
  cases readDigits? (splitSign cs).2 <;> rfl

/-- **Readers of signed numbers**, of which the part after the sign begins with a digit. -/
theorem readAfterSign?_eq_some_iff {read : List Char → Option Nat}
    (h : ∀ cs n, read cs = some n → IsUnsigned cs) :
    readAfterSign? read cs = some z ↔ ∃ sign σ rest n, cs = sign ++ rest ∧ IsSign sign σ
      ∧ read rest = some n ∧ z = σ * n := by
  unfold readAfterSign?
  constructor
  · intro hz
    obtain ⟨sign, σ, rest, hsign, rfl, hsplit⟩ := exists_isSign cs
    rw [hsplit] at hz
    obtain ⟨n, hn, rfl⟩ := Option.map_eq_some_iff.mp hz
    exact ⟨sign, σ, rest, n, rfl, hsign, hn, hsign.ite_eq_mul (n : Int)⟩
  · rintro ⟨sign, σ, rest, n, rfl, hsign, hn, rfl⟩
    rw [splitSign_append hsign (h rest n hn)]
    dsimp only
    rw [hn, Option.map_some, hsign.ite_eq_mul, Int.cast_id]

/-! ## §3. Digits -/

theorem readDigits?_eq_some_iff :
    readDigits? cs = some n ↔ cs ≠ [] ∧ AreDigits cs ∧ digitsValue cs = n := by
  unfold readDigits?
  constructor
  · intro h
    split at h
    · next hcs => exact ⟨hcs.1, List.all_eq_true.mp hcs.2, Option.some.inj h⟩
    · cases h
  · rintro ⟨hne, hdigits, rfl⟩
    exact if_pos ⟨hne, List.all_eq_true.mpr hdigits⟩

theorem isUnsigned_of_areDigits (h : AreDigits cs) : IsUnsigned cs := by
  cases cs with
  | nil =>
    intro c hc
    cases hc
  | cons c cs => exact isUnsigned_of_isDigit (h c List.mem_cons_self) cs

/-- Grouped digits begin with a digit. -/
theorem readGrouped?_eq_some_iff :
    readGrouped? cs = some n ↔ ∃ c rest, cs = c :: rest ∧ isDigit c = true
      ∧ (∀ d ∈ rest, isDigit d = true ∨ d = '_') ∧ digitsValue (cs.filter isDigit) = n := by
  cases cs with
  | nil => simp [readGrouped?]
  | cons c rest =>
    have hrest : rest.all (fun d => isDigit d || d == '_') = true
        ↔ ∀ d ∈ rest, isDigit d = true ∨ d = '_' := by simp
    rw [readGrouped?]
    constructor
    · intro h
      split at h
      · next hcs =>
        obtain ⟨hc, hall⟩ := Bool.and_eq_true_iff.mp hcs
        rw [← Option.some.inj h, List.filter_cons_of_pos hc]
        exact ⟨c, rest, rfl, hc, hrest.mp hall, rfl⟩
      · cases h
    · rintro ⟨c', rest', hcs, hc, hall, rfl⟩
      obtain ⟨rfl, rfl⟩ := List.cons.inj hcs
      rw [if_pos (Bool.and_eq_true_iff.mpr ⟨hc, hrest.mpr hall⟩), List.filter_cons_of_pos hc]

/-- **An integer** is read as what it denotes. -/
theorem readInteger?_eq_some_iff : readInteger? cs = some z ↔ IsInteger cs z := by
  have hunsigned : ∀ cs n, readGrouped? cs = some n → IsUnsigned cs := by
    intro cs n h
    obtain ⟨c, rest, rfl, hc, -, -⟩ := readGrouped?_eq_some_iff.mp h
    exact isUnsigned_of_isDigit hc rest
  rw [readInteger?_eq, readAfterSign?_eq_some_iff hunsigned]
  constructor
  · rintro ⟨sign, σ, rest, n, rfl, hsign, hn, rfl⟩
    obtain ⟨c, rest, rfl, hc, hrest, rfl⟩ := readGrouped?_eq_some_iff.mp hn
    exact .intro hsign hc hrest
  · rintro ⟨hsign, hc, hrest⟩
    exact ⟨_, _, _, _, rfl, hsign, readGrouped?_eq_some_iff.mpr ⟨_, _, rfl, hc, hrest, rfl⟩, rfl⟩

/-! ## §4. Fractions -/

theorem readFraction?_eq_some_iff {numerator denominator : List Char} :
    readFraction? numerator denominator = some v ↔ ∃ n d, IsInteger (trim numerator) n
      ∧ IsInteger (trim denominator) d ∧ d ≠ 0 ∧ v = n / d := by
  unfold readFraction?
  simp only [Option.bind_eq_bind, Option.bind_eq_some_iff, readInteger?_eq_some_iff]
  constructor
  · rintro ⟨n, hn, d, hd, hv⟩
    split at hv
    · cases hv
    · next h0 =>
      refine ⟨n, d, hn, hd, h0, ?_⟩
      rw [← Option.some.inj hv, Rat.divInt_eq_div]
  · rintro ⟨n, d, hn, hd, h0, rfl⟩
    refine ⟨n, hn, d, hd, ?_⟩
    rw [if_neg h0, Rat.divInt_eq_div]

theorem IsFraction.slash_mem (h : IsFraction cs v) : '/' ∈ cs := by
  obtain ⟨-, -, -, -⟩ := h
  exact List.mem_append_right _ List.mem_cons_self

/-- The slash of a fraction is the first one, so its parts are no others. -/
theorem isFraction_append_iff {numerator denominator : List Char} (hslash : '/' ∉ numerator) :
    IsFraction (numerator ++ '/' :: denominator) v ↔ ∃ n d, IsInteger (trim numerator) n
      ∧ IsInteger (trim denominator) d ∧ d ≠ 0 ∧ v = n / d := by
  constructor
  · generalize htext : numerator ++ '/' :: denominator = cs
    intro h
    have hcut := cutAt?_separator_eq_some_iff.mpr ⟨htext.symm, hslash⟩
    obtain ⟨hslash', hn, hd, h0⟩ := h
    -- both pairs of parts are what the cut at the first slash gives
    rw [cutAt?_separator_eq_some_iff.mpr ⟨rfl, hslash'⟩] at hcut
    obtain ⟨rfl, rfl⟩ := Prod.mk.inj (Option.some.inj hcut)
    exact ⟨_, _, hn, hd, h0, rfl⟩
  · rintro ⟨n, d, hn, hd, h0, rfl⟩
    exact .intro hslash hn hd h0

/-! ## §5. Decimals -/

theorem readSigned?_eq_some_iff : readSigned? cs = some x ↔ ∃ sign σ digits, cs = sign ++ digits
    ∧ IsSign sign σ ∧ digits ≠ [] ∧ AreDigits digits ∧ x = σ * digitsValue digits := by
  have hunsigned : ∀ cs n, readDigits? cs = some n → IsUnsigned cs := fun cs n h =>
    isUnsigned_of_areDigits (readDigits?_eq_some_iff.mp h).2.1
  rw [readSigned?_eq, readAfterSign?_eq_some_iff hunsigned]
  constructor
  · rintro ⟨sign, σ, digits, n, rfl, hsign, hn, rfl⟩
    obtain ⟨hne, hdigits, rfl⟩ := readDigits?_eq_some_iff.mp hn
    exact ⟨sign, σ, digits, rfl, hsign, hne, hdigits, rfl⟩
  · rintro ⟨sign, σ, digits, rfl, hsign, hne, hdigits, rfl⟩
    exact ⟨sign, σ, digits, _, rfl, hsign, readDigits?_eq_some_iff.mpr ⟨hne, hdigits, rfl⟩, rfl⟩

/-- **An exponent is split off** at its mark. -/
theorem splitExponent?_eq_some_iff :
    splitExponent? cs = some (mantissa, x) ↔ ∃ exponent, cs = mantissa ++ exponent
      ∧ IsExponent exponent x ∧ ∀ c ∈ mantissa, c ≠ 'e' ∧ c ≠ 'E' := by
  have hmark : ∀ c : Char, (c == 'e' || c == 'E') = true ↔ c = 'e' ∨ c = 'E' := by simp
  have hplain : ∀ c : Char, (c == 'e' || c == 'E') = false ↔ c ≠ 'e' ∧ c ≠ 'E' := by simp
  unfold splitExponent?
  constructor
  · intro h
    cases hcut : cutAt? (fun c => c == 'e' || c == 'E') cs with
    | none =>
      rw [hcut] at h
      obtain ⟨rfl, rfl⟩ := Prod.mk.inj (Option.some.inj h)
      refine ⟨[], (List.append_nil cs).symm, .none, fun c hc => (hplain c).mp ?_⟩
      exact (cutAt?_eq_none_iff _ _).mp hcut c hc
    | some parts =>
      obtain ⟨before, after⟩ := parts
      rw [hcut] at h
      obtain ⟨x', hx', hpair⟩ := Option.map_eq_some_iff.mp h
      obtain ⟨rfl, rfl⟩ := Prod.mk.inj hpair
      obtain ⟨c, rfl, hc, hbefore⟩ := exists_of_cutAt? hcut
      obtain ⟨sign, σ, digits, rfl, hsign, hne, hdigits, rfl⟩ := readSigned?_eq_some_iff.mp hx'
      exact ⟨_, rfl, .mark ((hmark c).mp hc) hsign hne hdigits,
        fun d hd => (hplain d).mp (hbefore d hd)⟩
  · rintro ⟨exponent, rfl, hexponent, hmantissa⟩
    have hbefore : ∀ c ∈ mantissa, (c == 'e' || c == 'E') = false := fun c hc =>
      (hplain c).mpr (hmantissa c hc)
    cases hexponent with
    | none =>
      rw [List.append_nil, (cutAt?_eq_none_iff _ _).mpr hbefore]
    | @mark c sign digits σ hc hsign hne hdigits =>
      rw [List.cons_append, cutAt?_append _ _ _ c hbefore ((hmark c).mpr hc)]
      dsimp only
      rw [readSigned?_eq_some_iff.mpr ⟨sign, σ, digits, rfl, hsign, hne, hdigits, rfl⟩]
      rfl

/-- **The point is found** where it was put. -/
theorem splitPoint_eq_iff :
    splitPoint cs = (whole, fraction) ↔ ∃ pointed, cs = whole ++ pointed
      ∧ IsPointed pointed fraction ∧ '.' ∉ whole := by
  unfold splitPoint
  constructor
  · intro h
    cases hcut : cutAt? (· == '.') cs with
    | none =>
      rw [hcut] at h
      obtain ⟨rfl, rfl⟩ := Prod.mk.inj h
      exact ⟨[], (List.append_nil cs).symm, .none, cutAt?_separator_eq_none_iff.mp hcut⟩
    | some parts =>
      rw [hcut] at h
      obtain rfl : parts = (whole, fraction) := h
      obtain ⟨rfl, hwhole⟩ := cutAt?_separator_eq_some_iff.mp hcut
      exact ⟨_, rfl, .point fraction, hwhole⟩
  · rintro ⟨pointed, rfl, hpointed, hwhole⟩
    cases hpointed with
    | none =>
      rw [List.append_nil, cutAt?_separator_eq_none_iff.mpr hwhole]
      rfl
    | point =>
      rw [cutAt?_separator_eq_some_iff.mpr ⟨rfl, hwhole⟩]
      rfl

theorem point_notMem (h : AreDigits cs) : '.' ∉ cs := fun hmem =>
  absurd (h '.' hmem) (by decide)

/-- What stands between the sign and the exponent of a decimal has no sign. -/
theorem isUnsigned_append {pointed : List Char} (hwhole : AreDigits whole)
    (hpointed : IsPointed pointed fraction) : IsUnsigned (whole ++ pointed) := by
  cases whole with
  | cons c whole => exact isUnsigned_of_isDigit (hwhole c List.mem_cons_self) _
  | nil =>
    cases hpointed with
    | none => exact isUnsigned_of_areDigits hwhole
    | point =>
      intro c hc
      obtain rfl : '.' = c := Option.some.inj hc
      decide

/-- To scale by ten is to multiply by a power of ten, with a negative exponent too. -/
theorem scaleByTen_eq (n : Nat) (x : Int) : scaleByTen n x = n * 10 ^ x := by
  have hten : ∀ k : Nat, ((tenTo k : Nat) : Rat) = 10 ^ (k : Int) := by
    intro k
    show (((10 : Nat) ^ k : Nat) : Rat) = _
    rw [Rat.zpow_natCast]
    push_cast
    rfl
  unfold scaleByTen
  split
  · next h =>
    rw [Nat.cast_mul, hten, Int.toNat_of_nonneg h]
  · next h =>
    have hx : (x.natAbs : Int) = -x := by omega
    rw [Rat.mkRat_eq_div, Int.cast_natCast, hten, hx, Rat.zpow_neg, div_inv_eq_mul]

/-- The characters before an exponent are digits, a sign and a point. -/
theorem ne_mark_of_mem_mantissa {pointed : List Char} (hsign : IsSign sign σ)
    (hwhole : AreDigits whole) (hpointed : IsPointed pointed fraction)
    (hfraction : AreDigits fraction) (hc : c ∈ sign ++ whole ++ pointed) : c ≠ 'e' ∧ c ≠ 'E' := by
  have hdigit : isDigit c = true → c ≠ 'e' ∧ c ≠ 'E' := fun h =>
    ⟨ne_of_isDigit h (by decide), ne_of_isDigit h (by decide)⟩
  rcases List.mem_append.mp hc with hc | hc
  · rcases List.mem_append.mp hc with hc | hc
    · cases hsign with
      | none => cases hc
      | plus =>
        obtain rfl := List.mem_singleton.mp hc
        decide
      | minus =>
        obtain rfl := List.mem_singleton.mp hc
        decide
    · exact hdigit (hwhole c hc)
  · cases hpointed with
    | none => cases hc
    | point =>
      rcases List.mem_cons.mp hc with rfl | hc
      · decide
      · exact hdigit (hfraction c hc)

/-- A mantissa whose parts are known. -/
theorem readMantissa?_eq (hsign : IsSign sign σ)
    (hsigned : splitSign mantissa = (decide (σ < 0), rest))
    (hpoint : splitPoint rest = (whole, fraction)) (x : Int) :
    readMantissa? x mantissa = (readDigits? (whole ++ fraction)).map fun n : Nat =>
      (σ : Rat) * (n : Rat) * 10 ^ (x - (fraction.length : Int)) := by
  unfold readMantissa?
  simp only [hsigned, hpoint, hsign.ite_eq_mul, scaleByTen_eq, ← Rat.mul_assoc,
    Option.bind_eq_bind, Option.map_eq_bind]
  rfl

/-- A decimal is read if its exponent is not too large. -/
theorem readDecimal_eq_ok_some_iff_of_split (hsplit : splitExponent? cs = some (mantissa, x)) :
    readDecimal cs = .ok (some v) ↔ |x| ≤ 4096 ∧ readMantissa? x mantissa = some v := by
  have hmax : maxExponent < x.natAbs ↔ ¬ |x| ≤ 4096 := by
    rw [Int.abs_eq_natAbs]
    unfold maxExponent
    omega
  rw [readDecimal_eq_ite hsplit]
  by_cases hx : |x| ≤ 4096
  · -- the least word is much larger
    have hword : x ≠ Int64.minValue.toInt := by
      rintro rfl
      exact absurd hx (by decide)
    rw [if_neg hword, if_neg (fun h => hmax.mp h hx), Except.ok.injEq]
    exact (and_iff_right hx).symm
  · rw [if_pos (hmax.mpr hx)]
    split <;> simp [hx]

/-- What is read, or is a fault, has a mantissa and an exponent. -/
theorem exists_splitExponent? (h : readDecimal cs ≠ .ok none) :
    ∃ mantissa x, splitExponent? cs = some (mantissa, x) := by
  obtain ⟨⟨mantissa, x⟩, hsplit⟩ : ∃ parts, splitExponent? cs = some parts := by
    refine Option.ne_none_iff_exists'.mp fun hnone => h ?_
    rw [readDecimal, splitWord?, hnone]
    rfl
  exact ⟨mantissa, x, hsplit⟩

/-- **A decimal** is read as what it denotes. -/
theorem readDecimal_eq_ok_some_iff : readDecimal cs = .ok (some v) ↔ IsDecimal cs v := by
  constructor
  · intro h
    obtain ⟨mantissa, x, hsplit⟩ := exists_splitExponent? (by rw [h]; simp)
    obtain ⟨hx, hv⟩ := (readDecimal_eq_ok_some_iff_of_split hsplit).mp h
    obtain ⟨exponent, rfl, hexponent, -⟩ := splitExponent?_eq_some_iff.mp hsplit
    obtain ⟨sign, σ, rest, hsign, rfl, hsigned⟩ := exists_isSign mantissa
    obtain ⟨⟨whole, fraction⟩, hparts⟩ : ∃ parts, splitPoint rest = parts := ⟨_, rfl⟩
    obtain ⟨pointed, rfl, hpointed, -⟩ := splitPoint_eq_iff.mp hparts
    rw [readMantissa?_eq hsign hsigned hparts] at hv
    obtain ⟨n, hn, rfl⟩ := Option.map_eq_some_iff.mp hv
    obtain ⟨hne, hdigits, rfl⟩ := readDigits?_eq_some_iff.mp hn
    obtain ⟨hwhole, hfraction⟩ := List.forall_mem_append.mp hdigits
    rw [← List.append_assoc]
    exact .intro hsign hwhole hpointed hfraction hne hexponent hx
  · rintro ⟨hsign, hwhole, hpointed, hfraction, hne, hexponent, hx⟩
    -- the reader splits where the parts were joined, from the exponent inwards
    have hplain := fun c hc => ne_mark_of_mem_mantissa (c := c) hsign hwhole hpointed hfraction hc
    have hsplit := splitExponent?_eq_some_iff.mpr ⟨_, rfl, hexponent, hplain⟩
    have hsigned := splitSign_append hsign (isUnsigned_append hwhole hpointed)
    have hpoint := splitPoint_eq_iff.mpr ⟨_, rfl, hpointed, point_notMem hwhole⟩
    rw [← List.append_assoc] at hsigned
    rw [readDecimal_eq_ok_some_iff_of_split hsplit, readMantissa?_eq hsign hsigned hpoint,
      readDigits?_eq_some_iff.mpr ⟨hne, List.forall_mem_append.mpr ⟨hwhole, hfraction⟩, rfl⟩]
    exact ⟨hx, rfl⟩

/-- **A decimal is a fault** if its exponent is the least word. -/
theorem readDecimal_eq_error_iff {f : Fault} :
    readDecimal cs = .error f ↔ f = .tooLarge ∧ HasLeastExponent cs := by
  have hleast : Int64.minValue.toInt = -2 ^ 63 := by decide
  have hsplits : HasLeastExponent cs ↔ ∃ mantissa, splitExponent? cs = some (mantissa, -2 ^ 63) := by
    unfold HasLeastExponent
    simp only [splitExponent?_eq_some_iff]
  rw [hsplits]
  constructor
  · intro h
    obtain ⟨mantissa, x, hsplit⟩ := exists_splitExponent? (by rw [h]; simp)
    rw [readDecimal_eq_ite hsplit] at h
    split at h
    · next hx =>
      cases h
      exact ⟨rfl, mantissa, hleast ▸ hx ▸ hsplit⟩
    · cases h
  · rintro ⟨rfl, mantissa, hsplit⟩
    rw [readDecimal_eq_ite hsplit, if_pos hleast.symm]

/-! ## §6. The two forms -/

/-- **Nothing is answered** for a text without a slash whose exponent is the least word. -/
theorem readRational_eq_error_iff {f : Fault} :
    readRational cs = .error f ↔ f = .tooLarge ∧ '/' ∉ trim cs ∧ HasLeastExponent (trim cs) := by
  unfold readRational
  dsimp only
  cases hcut : cutAt? (· == '/') (trim cs) with
  | none =>
    have hslash := cutAt?_separator_eq_none_iff.mp hcut
    dsimp only
    rw [readDecimal_eq_error_iff, and_iff_right hslash]
  | some parts =>
    obtain ⟨htext, -⟩ := cutAt?_separator_eq_some_iff.mp hcut
    dsimp only
    constructor
    · intro h
      cases h
    · rintro ⟨-, hslash, -⟩
      exact absurd (htext ▸ List.mem_append_right _ List.mem_cons_self) hslash

/-- **A rational is read** from a fraction around the first slash, or from a decimal if the
text has no slash; it is read back from what is written for it.  Nothing is answered for a
text without a slash whose exponent is the least word. -/
theorem readRational?_grammar :
    (∀ cs v, readRational? cs = some v ↔
      IsFraction (trim cs) v ∨ ('/' ∉ trim cs ∧ IsDecimal (trim cs) v))
    ∧ (∀ cs f, readRational cs = .error f ↔
      f = .tooLarge ∧ '/' ∉ trim cs ∧ HasLeastExponent (trim cs))
    ∧ ∀ q, readRational? (rationalText q) = some q := by
  refine ⟨fun cs v => ?_, fun cs f => readRational_eq_error_iff, readRational?_rationalText⟩
  rw [readRational?_eq_some_iff]
  unfold readRational
  dsimp only
  cases hcut : cutAt? (· == '/') (trim cs) with
  | none =>
    have hslash := cutAt?_separator_eq_none_iff.mp hcut
    dsimp only
    rw [readDecimal_eq_ok_some_iff]
    constructor
    · exact fun h => .inr ⟨hslash, h⟩
    · rintro (h | h)
      · exact absurd h.slash_mem hslash
      · exact h.2
  | some parts =>
    obtain ⟨numerator, denominator⟩ := parts
    obtain ⟨htext, hslash⟩ := cutAt?_separator_eq_some_iff.mp hcut
    dsimp only
    rw [Except.ok.injEq, readFraction?_eq_some_iff, htext]
    constructor
    · rintro ⟨n, d, hn, hd, h0, rfl⟩
      exact .inl (.intro hslash hn hd h0)
    · rintro (h | h)
      · exact (isFraction_append_iff hslash).mp h
      · -- a text with a slash is no decimal
        exact absurd (List.mem_append_right _ List.mem_cons_self) h.1

end SimplicialNash.Number
