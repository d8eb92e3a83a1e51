/-
  SimplicialNash.Number.Total
  ───────────────────────────
  Totals of rational numbers.
-/

namespace SimplicialNash.Number

/-- The sum of all numbers of a list. -/
def total (qs : List Rat) : Rat := qs.foldr (· + ·) 0

@[simp] theorem total_nil : total [] = 0 := rfl

@[simp] theorem total_cons (q : Rat) (qs : List Rat) : total (q :: qs) = q + total qs := rfl

end SimplicialNash.Number
