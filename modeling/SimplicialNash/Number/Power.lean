/-
  SimplicialNash.Number.Power
  ───────────────────────────
  Powers of the two bases in which numbers are stored and written.
-/

namespace SimplicialNash.Number

/-- A power of two. -/
def twoTo (k : Nat) : Nat := Nat.pow 2 k

/-- A power of ten. -/
def tenTo (k : Nat) : Nat := Nat.pow 10 k

end SimplicialNash.Number
