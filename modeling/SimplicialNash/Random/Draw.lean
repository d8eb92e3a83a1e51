/-
  SimplicialNash.Random.Draw
  ──────────────────────────
  Uniform draws from a stream of words.

  To draw from `r` numbers, a word is multiplied by `r`, and the upper half of
  the product is the number drawn.  That favours no number if only the words
  whose lower half is within a zone are used, whose size is a multiple of `r`;
  the others are passed over.
-/
import SimplicialNash.Number.Power
import SimplicialNash.Random.ChaCha

namespace SimplicialNash.Random

open SimplicialNash.Number (twoTo)

/-- How many words in a row may be passed over. -/
def maxRejections : Nat := UInt32.size

/-- The largest lower half of a product that is used, for draws from `r`
numbers: one less than `r` shifted up to the top of a word. -/
def zone (r : Nat) : Nat := r * twoTo (31 - r.log2) - 1

/-- The first word from a position on that is used, as the number it gives out
of `r`, and the position after it. -/
def drawFrom? (words : WordStream) (r : Nat) : (fuel : Nat) → Nat → Option (Nat × Nat)
  | 0, _ => none
  | fuel + 1, position =>
    let product := (words position).toNat * r
    if product % UInt32.size ≤ zone r then some (product / UInt32.size, position + 1)
    else drawFrom? words r fuel (position + 1)

/-- A number from zero to `max`, drawn from the words from a position on, and
the position after those used. -/
def draw? (words : WordStream) (position max : Nat) : Option (Nat × Nat) :=
  if max + 1 = UInt32.size then some ((words position).toNat, position + 1)
  else drawFrom? words (max + 1) maxRejections position

end SimplicialNash.Random
