/-
  SimplicialNash.Circle
  ─────────────────────
  The strategies of one player in circular order.

  After the last strategy comes the first.  Some strategies are closed, the
  others are free; a grid step moves weight from the nearest free strategy
  before a strategy onto that strategy.

  Main definitions: `freeBefore?`, the nearest free place before a place;
  `afterFreeBefore?`, the place that follows it; `freeFrom?`, the nearest free
  place from a place on; `arc`, the places from one to another.
-/
import SimplicialNash.Fault

namespace SimplicialNash.Circle

variable {n : Nat}

/-- The place `k` steps after `s`. -/
def ahead (s : Fin n) (k : Nat) : Fin n :=
  ⟨(s.val + k) % n, Nat.mod_lt _ (Nat.lt_of_le_of_lt (Nat.zero_le _) s.isLt)⟩

/-- The place directly before `s`. -/
def before (s : Fin n) : Fin n := ahead s (n - 1)

/-- All places, from the one before `s` backwards to `s` itself. -/
def backwards (s : Fin n) : List (Fin n) :=
  (List.range n).map fun k => ahead s (n - 1 - k)

/-- All places, from `s` forwards to the one before it. -/
def forwards (s : Fin n) : List (Fin n) := (List.range n).map (ahead s)

/-- The places from `a` forwards to `b`, both included. -/
def arc (a b : Fin n) : List (Fin n) :=
  (List.range ((b.val + n - a.val) % n + 1)).map (ahead a)

/-- The nearest free place before `s`; `s` itself if it alone is free. -/
def freeBefore? (closed : Fin n → Bool) (s : Fin n) : Option (Fin n) :=
  (backwards s).find? fun c => !closed c

/-- The place after the nearest free place before `s`: the first of the closed
places that lead up to `s`, or `s` itself if there are none. -/
def afterFreeBefore? (closed : Fin n → Bool) (s : Fin n) : Option (Fin n) :=
  (freeBefore? closed s).map fun c => ahead c 1

/-- The nearest free place from `s` on. -/
def freeFrom? (closed : Fin n → Bool) (s : Fin n) : Option (Fin n) :=
  (forwards s).find? fun c => !closed c

/-- The nearest free place before a place and the place after that, for places
given by number.  Numbers beyond the last place go around the circle again. -/
def neighbours (closed : List Bool) (place : Nat) : Except Fault (Nat × Nat) :=
  if h : 0 < closed.length then
    let flags (s : Fin closed.length) : Bool := closed[s]
    let s : Fin closed.length := ⟨place % closed.length, Nat.mod_lt _ h⟩
    match freeBefore? flags s with
    | some c => .ok (c.val, (ahead c 1).val)
    | none => .error .allSaturated
  else .error .allSaturated

/-! ## Small laws -/

@[simp] theorem ahead_val (s : Fin n) (k : Nat) : (ahead s k).val = (s.val + k) % n := rfl

theorem ahead_zero (s : Fin n) : ahead s 0 = s := by
  apply Fin.ext
  simp [Nat.mod_eq_of_lt s.isLt]

theorem ahead_ahead (s : Fin n) (j k : Nat) : ahead (ahead s j) k = ahead s (j + k) := by
  apply Fin.ext
  simp [Nat.add_assoc]

/-- The place after the one before `s` is `s`. -/
theorem ahead_before (s : Fin n) : ahead (before s) 1 = s := by
  have h : n - 1 + 1 = n := Nat.succ_pred_eq_of_pos (Nat.lt_of_le_of_lt (Nat.zero_le _) s.isLt)
  rw [before, ahead_ahead, h]
  apply Fin.ext
  simp [Nat.mod_eq_of_lt s.isLt]

/-- What is found before a place is free. -/
theorem closed_freeBefore? {closed : Fin n → Bool} {s c : Fin n}
    (h : freeBefore? closed s = some c) : closed c = false := by
  simpa using List.find?_some h

/-- What is found from a place on is free. -/
theorem closed_freeFrom? {closed : Fin n → Bool} {s c : Fin n}
    (h : freeFrom? closed s = some c) : closed c = false := by
  simpa using List.find?_some h

end SimplicialNash.Circle
