/-
  SimplicialNash.Proofs.Walk.Reconstruction
  ─────────────────────────────────────────
  **The vertex that is looked at can be rebuilt.**

  A walk moves the vertex that it looks at by one grid step after another.  The same vertex is
  found from the reference vertex alone: what the ledger has counted is transferred, strategy
  by strategy (`Simplex.settled`), and grid steps lead on along the path
  (`Simplex.rebuilt`).

  Each transfer takes weight from the strategy directly before, which may have received some
  itself.  In the end a strategy has gained its own count and lost that of the next one
  (`Simplex.get_foldl_settle`), so for every simplex the transfers arrive at its base
  (`Simplex.settled_eq_base`).

  Main statement: `rebuilt_of_mem_passEvaluations`, for every label that a pass evaluates.
-/
import SimplicialNash.Proofs.Walk.Pass

namespace SimplicialNash

variable {shape : Shape}

/-! ## §1. The strategy directly before -/

namespace Label

/-- The label of the strategy that comes directly before in circular order. -/
def previous (l : Label shape) : Label shape := l.moveTo (Circle.before l.place)

theorem next_previous (l : Label shape) : l.previous.next = l :=
  Label.ext rfl (congrArg Fin.val (Circle.ahead_before l.place))

/-- A label comes before another where the other one follows. -/
theorem eq_previous_iff {k l : Label shape} : k = l.previous ↔ k.next = l := by
  constructor
  · rintro rfl
    exact l.next_previous
  · intro h
    exact next_injective (h.trans l.next_previous.symm)

end Label

/-! ## §2. The ledger, transfer by transfer -/

namespace Simplex

variable {x : Simplex shape}

/-- What the ledger has counted for a fixed strategy is taken from the strategy directly
before it. -/
def settle (x : Simplex shape) (y : Point shape) (l : Label shape) : Point shape :=
  if x.steps.get l = 0 || !x.isFixed l then y
  else y.transfer l.previous l (x.mesh * (x.steps.get l : Rat))

/-- The reference vertex after the transfers for all strategies. -/
def settled (x : Simplex shape) : Point shape := (Label.all shape).foldl x.settle x.reference

/-- The vertex with a given number, rebuilt from the reference vertex. -/
def rebuilt (x : Simplex shape) (number : Nat) : Except Fault (Point shape) :=
  x.stepsOnto x.settled (x.path.take number)

/-- Where nothing is transferred, the ledger has counted nothing. -/
theorem settle_eq (x : Simplex shape) (y : Point shape) (l : Label shape) :
    x.settle y l = y.transfer l.previous l (x.mesh * (x.ledger l : Rat)) := by
  have hnothing : y = y.transfer l.previous l 0 :=
    StrategyTable.ext_get fun k => by simp [Point.get_transfer]
  -- counts of zero, and counts at free strategies, are passed over
  unfold settle ledger
  by_cases hfixed : x.isFixed l = true
  · by_cases hzero : x.steps.get l = 0
    · simpa [hfixed, hzero] using hnothing
    · simp [hfixed, hzero]
  · simpa [hfixed] using hnothing

/-- **Each strategy gains its own count and loses that of the next one**, once either has come
up. -/
theorem get_foldl_settle {ls : List (Label shape)} (hn : ls.Nodup) (y : Point shape)
    (k : Label shape) :
    (ls.foldl x.settle y).get k
      = y.get k + (if k ∈ ls then x.mesh * (x.ledger k : Rat) else 0)
        - (if k.next ∈ ls then x.mesh * (x.ledger k.next : Rat) else 0) := by
  induction ls generalizing y with
  | nil => simp
  | cons l ls ih =>
    obtain ⟨hl, hn⟩ := List.nodup_cons.mp hn
    -- the rest of the list does not come back to the label
    have hsplit (m : Label shape) : (if m ∈ l :: ls then x.mesh * (x.ledger m : Rat) else 0)
        = (if m = l then x.mesh * (x.ledger l : Rat) else 0)
          + (if m ∈ ls then x.mesh * (x.ledger m : Rat) else 0) := by
      by_cases hm : m = l
      · subst hm
        rw [if_pos List.mem_cons_self, if_pos rfl, if_neg hl, add_zero]
      · have hiff : m ∈ l :: ls ↔ m ∈ ls := by simp [hm]
        rw [if_neg hm, zero_add, if_congr hiff rfl rfl]
    rw [List.foldl_cons, ih hn, settle_eq, Point.get_transfer, hsplit k, hsplit k.next,
      if_congr Label.eq_previous_iff rfl rfl]
    ring

/-- **The transfers arrive at the base.** -/
theorem settled_eq_base (x : Simplex shape) : x.settled = x.base := by
  refine StrategyTable.ext_get fun k => ?_
  rw [settled, get_foldl_settle (Label.nodup_all shape), if_pos (Label.mem_all k),
    if_pos (Label.mem_all k.next), base, StrategyTable.get_tabulate]
  push_cast
  ring

/-- A vertex is rebuilt as it is found from the base. -/
theorem rebuilt_eq_vertex (x : Simplex shape) (number : Nat) :
    x.rebuilt number = x.vertex number := by
  rw [rebuilt, settled_eq_base, vertex]

end Simplex

/-! ## §3. At every label -/

section

variable {g : Game} {reference : Profile} {mesh : Rat} {leashLength : Nat}

/-- **Whenever a label is evaluated, the vertex that is looked at is the one that is rebuilt**
from the reference vertex, the ledger, and the path up to the vertex. -/
theorem rebuilt_of_mem_passEvaluations (h : IsPassStart g reference mesh leashLength)
    {incumbent : Incumbent} {limits : PassLimits} {clock : Clock} {p : Pass reference.shape}
    (hp : p ∈ passEvaluations g reference mesh leashLength incumbent limits clock) :
    p.simplex.reference = reference.weights ∧ p.simplex.mesh = mesh
      ∧ p.simplex.slot ≤ p.simplex.path.length
      ∧ p.simplex.rebuilt p.simplex.slot = .ok p.simplex.current
      ∧ p.simplex.vertex p.simplex.slot = .ok p.simplex.current := by
  obtain ⟨hp, heval⟩ := List.mem_filter.mp hp
  obtain ⟨G, f, n, rfl, rfl, href, a, -, hst⟩ := h.exists_standsAt_of_mem hp
  rw [Pass.StandsAt.move_of_evaluates heval] at hst
  cases hst with
  | evaluate hpending hdoor =>
    have hvertex : p.simplex.vertex p.simplex.slot = .ok p.simplex.current := by
      rw [hpending.isOn.vertex_eq, hpending.current]
    exact ⟨hpending.isOn.reference.trans href, hpending.isOn.mesh, hdoor.vertex_le,
      (p.simplex.rebuilt_eq_vertex _).trans hvertex, hvertex⟩

theorem rebuilt_of_mem_passEvaluations_heads :
    ∃ p ∈ passEvaluations ClassicGame.matchingPennies.game.toGame heads (1 / 9) 9 ⟨2, heads, 0⟩
        .none .stopped,
      p.simplex.steps.toList = [0, 3, 0, 5] ∧ p.simplex.slot = 1
        ∧ p.profile.values = [5 / 9, 4 / 9, 4 / 9, 5 / 9]
        ∧ p.simplex.rebuilt p.simplex.slot = .ok p.simplex.current := by
  obtain ⟨p, hp, hsteps, hslot, hvalues⟩ : ∃ p ∈ passEvaluations
      ClassicGame.matchingPennies.game.toGame heads (1 / 9) 9 ⟨2, heads, 0⟩ .none .stopped,
      p.simplex.steps.toList = [0, 3, 0, 5] ∧ p.simplex.slot = 1
        ∧ p.profile.values = [5 / 9, 4 / 9, 4 / 9, 5 / 9] := by
    decide +kernel
  exact ⟨p, hp, hsteps, hslot, hvalues,
    (rebuilt_of_mem_passEvaluations isPassStart_heads hp).2.2.2.1⟩

end

end SimplicialNash
