/-
  SimplicialNash.Game.PureProfile
  ───────────────────────────────
  Pure profiles and their numbering.

  A pure profile names one strategy per player.  The profiles of a shape are
  numbered with the first player's strategy varying fastest, so the number is
  a mixed-radix numeral with the strategies as its digits.  `ofIndex` and
  `index` are inverse to each other between the numbers below the profile
  count and the profiles that the shape admits (`index_ofIndex`,
  `ofIndex_index`).

  The number is also computed from strides, the factors with which the
  players' strategies count in it (`numberBy_strides`).
-/
import SimplicialNash.Label

namespace SimplicialNash

/-! ## §1. Shapes and their profiles -/

namespace Shape

/-- The number of pure profiles. -/
def profileCount : Shape → Nat
  | [] => 1
  | n :: rest => n * profileCount rest

/-- The number of pure profiles, counted up player by player, if it stays
below `2 ^ 64`. -/
def countProfiles? (shape : Shape) : Option Nat :=
  shape.foldl (fun total n =>
      total.bind fun t => if t * n < UInt64.size then some (t * n) else none)
    (some 1)

/-- Whether a list names one existing strategy per player. -/
def Admits : Shape → List Nat → Prop
  | [], [] => True
  | n :: shape, s :: profile => s < n ∧ Admits shape profile
  | _, _ => False

instance decidableAdmits : (shape : Shape) → (profile : List Nat) → Decidable (shape.Admits profile)
  | [], [] => isTrue trivial
  | [], _ :: _ => isFalse id
  | _ :: _, [] => isFalse id
  | n :: shape, s :: profile =>
    have := decidableAdmits shape profile
    inferInstanceAs (Decidable (s < n ∧ Admits shape profile))

/-- The factors by which the players' strategies count in a profile's number. -/
def strides : Shape → List Nat
  | [] => []
  | n :: rest => 1 :: (strides rest).map (n * ·)

/-- The strides as they are counted up player by player, the first of them being `size`. -/
def stridesFrom (size : Nat) : Shape → List Nat
  | [] => []
  | n :: rest => size :: stridesFrom (size * n) rest

theorem stridesFrom_eq (size : Nat) (shape : Shape) :
    stridesFrom size shape = shape.strides.map (size * ·) := by
  induction shape generalizing size with
  | nil => rfl
  | cons n rest ih =>
    rw [stridesFrom, ih, strides, List.map_cons, List.map_map, Nat.mul_one]
    congr 1
    exact List.map_congr_left fun stride _ => Nat.mul_assoc size n stride

theorem stridesFrom_one (shape : Shape) : stridesFrom 1 shape = shape.strides := by
  simp [stridesFrom_eq]

theorem countProfiles?_foldl {shape : Shape} {start total : Nat}
    (h : shape.foldl (fun total n =>
        total.bind fun t => if t * n < UInt64.size then some (t * n) else none) (some start)
      = some total) : total = start * shape.profileCount := by
  induction shape generalizing start with
  | nil => simpa [Shape.profileCount, eq_comm] using h
  | cons n rest ih =>
    simp only [List.foldl_cons, Option.bind_some] at h
    split at h
    · rw [ih h, Shape.profileCount, Nat.mul_assoc]
    · exfalso
      clear ih
      induction rest with
      | nil => simp at h
      | cons m rest ih => exact ih (by simpa using h)

/-- What is counted is the number of pure profiles. -/
theorem eq_profileCount_of_countProfiles? {shape : Shape} {total : Nat}
    (h : shape.countProfiles? = some total) : total = shape.profileCount := by
  simpa using countProfiles?_foldl h

end Shape

/-! ## §2. The numbering -/

namespace PureProfile

/-- The number of a profile.  Positions beyond the last player count for
nothing, and so do missing ones. -/
def index : Shape → List Nat → Nat
  | n :: shape, s :: profile => s + n * index shape profile
  | _, _ => 0

/-- The number of a profile from the players' strides.  Positions without a
stride count for nothing, and so do missing ones. -/
def numberBy : (strides profile : List Nat) → Nat
  | stride :: strides, s :: profile => s * stride + numberBy strides profile
  | _, _ => 0

/-- The profile with a given number. -/
def ofIndex : Shape → Nat → List Nat
  | [], _ => []
  | n :: shape, i => (i % n) :: ofIndex shape (i / n)

/-- All profiles of a shape, in the order of their numbers. -/
def all (shape : Shape) : List (List Nat) :=
  (List.range shape.profileCount).map (ofIndex shape)

theorem numberBy_map_mul (n : Nat) (strides profile : List Nat) :
    numberBy (strides.map (n * ·)) profile = n * numberBy strides profile := by
  induction strides generalizing profile with
  | nil => rfl
  | cons stride strides ih =>
    cases profile with
    | nil => rfl
    | cons s profile =>
      rw [List.map_cons, numberBy, ih, numberBy, Nat.mul_add, Nat.mul_left_comm]

/-- **Strides give the numbers** of profiles. -/
theorem numberBy_strides (shape : Shape) (profile : List Nat) :
    numberBy shape.strides profile = index shape profile := by
  induction shape generalizing profile with
  | nil => cases profile <;> rfl
  | cons n shape ih =>
    cases profile with
    | nil => rfl
    | cons s profile => rw [Shape.strides, numberBy, numberBy_map_mul, ih, Nat.mul_one, index]

theorem length_of_admits {shape : Shape} {profile : List Nat} (h : shape.Admits profile) :
    profile.length = shape.length := by
  induction shape generalizing profile with
  | nil => cases profile <;> simp_all [Shape.Admits]
  | cons n rest ih =>
    cases profile with
    | nil => exact h.elim
    | cons s p => simp [ih h.2]

/-- The number of an admitted profile is below the profile count. -/
theorem index_lt {shape : Shape} {profile : List Nat} (h : shape.Admits profile) :
    index shape profile < shape.profileCount := by
  induction shape generalizing profile with
  | nil => cases profile <;> simp_all [Shape.Admits, index, Shape.profileCount]
  | cons n rest ih =>
    cases profile with
    | nil => exact h.elim
    | cons s p =>
      have hi := ih h.2
      have hs := h.1
      simp only [index, Shape.profileCount]
      calc s + n * index rest p < n + n * index rest p := by omega
        _ = n * (index rest p + 1) := by rw [Nat.mul_add, Nat.mul_one, Nat.add_comm]
        _ ≤ n * Shape.profileCount rest := Nat.mul_le_mul_left n hi

/-- Every number below the profile count belongs to an admitted profile. -/
theorem admits_ofIndex {shape : Shape} {i : Nat} (h : i < shape.profileCount) :
    shape.Admits (ofIndex shape i) := by
  induction shape generalizing i with
  | nil => trivial
  | cons n rest ih =>
    simp only [Shape.profileCount] at h
    have hn : 0 < n := Nat.pos_of_ne_zero fun h0 => by simp [h0] at h
    exact ⟨Nat.mod_lt _ hn, ih (Nat.div_lt_of_lt_mul h)⟩

theorem index_ofIndex {shape : Shape} {i : Nat} (h : i < shape.profileCount) :
    index shape (ofIndex shape i) = i := by
  induction shape generalizing i with
  | nil => simp only [Shape.profileCount] at h; simp only [index]; omega
  | cons n rest ih =>
    simp only [Shape.profileCount] at h
    simp only [index, ofIndex, ih (Nat.div_lt_of_lt_mul h)]
    exact Nat.mod_add_div i n

theorem ofIndex_index {shape : Shape} {profile : List Nat} (h : shape.Admits profile) :
    ofIndex shape (index shape profile) = profile := by
  induction shape generalizing profile with
  | nil => cases profile <;> simp_all [Shape.Admits, ofIndex]
  | cons n rest ih =>
    cases profile with
    | nil => exact h.elim
    | cons s p =>
      have hs := h.1
      have hn : 0 < n := Nat.lt_of_le_of_lt (Nat.zero_le _) hs
      simp only [index, ofIndex]
      rw [Nat.add_mul_mod_self_left, Nat.mod_eq_of_lt hs, Nat.add_mul_div_left _ _ hn,
        Nat.div_eq_of_lt hs, Nat.zero_add, ih h.2]

/-- A profile is among all of them exactly if it is admitted. -/
theorem mem_all {shape : Shape} {profile : List Nat} :
    profile ∈ all shape ↔ shape.Admits profile := by
  constructor
  · intro h
    obtain ⟨i, hi, rfl⟩ := List.mem_map.mp h
    exact admits_ofIndex (List.mem_range.mp hi)
  · intro h
    exact List.mem_map.mpr ⟨_, List.mem_range.mpr (index_lt h), ofIndex_index h⟩

end PureProfile

end SimplicialNash
