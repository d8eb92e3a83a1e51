/-
  SimplicialNash.Number.Rounding
  ──────────────────────────────
  Rounding a quotient of natural numbers to the nearest integer.

  Main statement: the result is within half a unit of the quotient
  (`two_mul_divNearest_le`, `le_two_mul_divNearest`).
-/

namespace SimplicialNash.Number

/-- What a half is rounded to. -/
inductive Tie where
  /-- The even neighbour. -/
  | toEven
  /-- The larger neighbour. -/
  | up
deriving DecidableEq, Repr

/-- Whether a half above `q` is rounded to `q + 1`. -/
def Tie.roundsUp (tie : Tie) (q : Nat) : Bool :=
  match tie with
  | .toEven => q % 2 == 1
  | .up => true

/-- The integer nearest to `n / d`. -/
def divNearest (tie : Tie) (n d : Nat) : Nat :=
  let q := n / d
  let r := n % d
  if 2 * r < d then q
  else if d < 2 * r then q + 1
  else if tie.roundsUp q then q + 1 else q

/-- The result exceeds the quotient by at most a half. -/
theorem two_mul_divNearest_le (tie : Tie) (n d : Nat) :
    2 * (divNearest tie n d * d) ≤ 2 * n + d := by
  have h := Nat.div_add_mod n d
  have hc : n / d * d = d * (n / d) := Nat.mul_comm _ _
  unfold divNearest
  simp only
  split
  · omega
  · split
    · rw [Nat.add_mul]; omega
    · split
      · rw [Nat.add_mul]; omega
      · omega

/-- The quotient exceeds the result by at most a half. -/
theorem le_two_mul_divNearest (tie : Tie) (n d : Nat) (hd : 0 < d) :
    2 * n ≤ 2 * (divNearest tie n d * d) + d := by
  have h := Nat.div_add_mod n d
  have hm := Nat.mod_lt n hd
  have hc : n / d * d = d * (n / d) := Nat.mul_comm _ _
  unfold divNearest
  simp only
  split
  · omega
  · split
    · rw [Nat.add_mul]; omega
    · split
      · rw [Nat.add_mul]; omega
      · omega

end SimplicialNash.Number
