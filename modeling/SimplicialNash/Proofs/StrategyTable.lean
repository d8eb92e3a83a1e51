/-
  SimplicialNash.Proofs.StrategyTable
  ───────────────────────────────────
  Tables by rows, and sums over the strategies of a player.

  Rows are cut out of the list of all entries.  Read by label, the row of a
  player is the list of entries at the player's labels (`rows_eq`), so the total
  of a row is a sum over labels (`Label.total_map_ofPlayer`) and a normalized
  profile is one whose weights are not negative and sum to one for each player
  (`Profile.isNormalized_iff`).
-/
import Mathlib.Algebra.BigOperators.Group.Finset.Basic
import Mathlib.Algebra.Order.BigOperators.Group.Finset
import Mathlib.Algebra.Order.Ring.Rat
import Mathlib.Data.Fintype.EquivFin
import SimplicialNash.Profile.Basic

namespace SimplicialNash

open SimplicialNash.Number (total)

/-! ## §1. The finite type of labels -/

namespace Shape

variable {shape : Shape} {i : Nat}

theorem count_eq_getElem (hi : i < shape.length) : shape.count i = shape[i] := by
  rw [count, List.getD_eq_getElem?_getD, List.getElem?_eq_getElem hi, Option.getD_some]

/-- Where no player is without strategies, every player has one. -/
theorem count_pos (h0 : 0 ∉ shape) (hi : i < shape.length) : 0 < shape.count i := by
  refine Nat.pos_of_ne_zero fun hzero => h0 ?_
  rw [count_eq_getElem hi] at hzero
  exact hzero ▸ List.getElem_mem hi

end Shape

namespace Label

variable {shape : Shape}

/-- The player of a label exists. -/
theorem player_lt (l : Label shape) : l.player < shape.length :=
  Shape.lt_length_of_count_pos (Nat.lt_of_le_of_lt (Nat.zero_le _) l.inRange)

theorem count_le_size (l : Label shape) : shape.count l.player ≤ shape.size := by
  have h1 := l.inRange
  have h2 := Shape.offset_add_lt (show shape.count l.player - 1 < shape.count l.player by omega)
  omega

/-- Labels are numbered. -/
def equivFin (shape : Shape) : Label shape ≃ Fin shape.size where
  toFun l := ⟨l.index, l.index_lt⟩
  invFun := ofIndex
  left_inv := ofIndex_index
  right_inv i := Fin.ext (index_ofIndex i)

instance : Fintype (Label shape) := Fintype.ofEquiv _ (equivFin shape).symm

theorem card_eq_size : Fintype.card (Label shape) = shape.size := by
  rw [Fintype.card_congr (equivFin shape), Fintype.card_fin]

theorem nodup_all (shape : Shape) : (all shape).Nodup :=
  (List.nodup_finRange _).map (equivFin shape).symm.injective

theorem nodup_ofPlayer (player : Nat) : (ofPlayer shape player).Nodup := by
  refine List.Nodup.map ?_ (List.nodup_finRange _)
  intro s t h
  exact Fin.ext (congrArg strategy h)

theorem length_ofPlayer (player : Nat) : (ofPlayer shape player).length = shape.count player := by
  rw [ofPlayer, List.length_map, List.length_finRange]

end Label

/-! ## §2. Rows -/

namespace StrategyTable

variable {shape : Shape} {α : Type}

theorem getElem?_toList (t : StrategyTable shape α) (l : Label shape) :
    t.toList[l.index]? = some (t.get l) := by
  have h := l.index_lt
  rw [toList, Vector.getElem?_toList, Vector.getElem?_eq_getElem h]
  rfl

theorem length_cut (shape : Shape) (data : List α) : (cut shape data).length = shape.length := by
  induction shape generalizing data with
  | nil => rfl
  | cons n rest ih => rw [cut, List.length_cons, ih, List.length_cons]

theorem getElem?_cut {shape : Shape} {data : List α} {i : Nat} (hi : i < shape.length) :
    (cut shape data)[i]? = some ((data.drop (shape.offset i)).take (shape.count i)) := by
  induction shape generalizing data i with
  | nil => exact absurd hi (Nat.not_lt_zero i)
  | cons n rest ih =>
    cases i with
    | zero => rfl
    | succ i =>
      rw [cut, List.getElem?_cons_succ, ih (Nat.lt_of_succ_lt_succ hi), List.drop_drop,
        Shape.count_cons_succ]
      rfl

/-- **The row of a player has the entries at the player's labels.** -/
theorem rows_eq (t : StrategyTable shape α) :
    t.rows = (List.range shape.length).map fun i => (Label.ofPlayer shape i).map t.get := by
  refine List.ext_getElem? fun i => ?_
  rcases Nat.lt_or_ge i shape.length with hi | hi
  · rw [rows, getElem?_cut hi, List.getElem?_map, List.getElem?_range hi, Option.map_some,
      Option.some.injEq]
    refine List.ext_getElem? fun s => ?_
    rcases Nat.lt_or_ge s (shape.count i) with hs | hs
    · have hl := getElem?_toList t (⟨i, s, hs⟩ : Label shape)
      have hf : (List.finRange (shape.count i))[s]? = some ⟨s, hs⟩ := by simp [hs]
      rw [List.getElem?_take_of_lt hs, List.getElem?_drop, List.getElem?_map, Label.ofPlayer,
        List.getElem?_map, hf]
      exact hl
    · rw [List.getElem?_eq_none (by simp; omega),
        List.getElem?_eq_none (by rw [List.length_map, Label.length_ofPlayer]; exact hs)]
  · rw [List.getElem?_eq_none (by rw [rows, length_cut]; exact hi),
      List.getElem?_eq_none (by rw [List.length_map, List.length_range]; exact hi)]

theorem mem_toList {t : StrategyTable shape α} {w : α} : w ∈ t.toList ↔ ∃ l, t.get l = w := by
  constructor
  · intro h
    obtain ⟨i, hi⟩ := List.mem_iff_getElem?.mp h
    have hlt := (List.getElem?_eq_some_iff.mp hi).1
    rw [length_toList] at hlt
    have hl := getElem?_toList t (Label.ofIndex ⟨i, hlt⟩)
    rw [Label.index_ofIndex, hi, Option.some.injEq] at hl
    exact ⟨_, hl.symm⟩
  · rintro ⟨l, rfl⟩
    exact List.mem_of_getElem? (getElem?_toList t l)

end StrategyTable

/-! ## §3. Sums over the labels of a player -/

theorem Number.total_eq_sum (qs : List Rat) : total qs = qs.sum := by
  induction qs with
  | nil => rfl
  | cons q qs ih => rw [total_cons, List.sum_cons, ih]

/-- The total over a player's strategies is a sum over labels. -/
theorem Label.total_map_ofPlayer {shape : Shape} (g : Label shape → Rat) (i : Nat) :
    total ((ofPlayer shape i).map g) = ∑ l with l.player = i, g l := by
  have e : ({l | l.player = i} : Finset (Label shape)) = (ofPlayer shape i).toFinset := by
    ext l
    rw [Finset.mem_filter, List.mem_toFinset, mem_ofPlayer]
    simp
  rw [Number.total_eq_sum, e, List.sum_toFinset _ (nodup_ofPlayer i)]

/-! ## §4. Weights of profiles -/

namespace Profile

/-- The weight of a player's strategy; zero if there is none. -/
def weight (p : Profile) (player strategy : Nat) : Rat :=
  (p.rows.getD player []).getD strategy 0

theorem weight_eq (p : Profile) (l : Label p.shape) :
    p.weight l.player l.strategy = p.weights.get l := by
  have hi := l.player_lt
  have hrow : p.rows.getD l.player [] = (Label.ofPlayer p.shape l.player).map p.weights.get := by
    rw [rows, StrategyTable.rows_eq, List.getD_eq_getElem?_getD, List.getElem?_map,
      List.getElem?_range hi]
    rfl
  have hs : (List.finRange (p.shape.count l.player))[l.strategy]?
      = some ⟨l.strategy, l.inRange⟩ := by simp [l.inRange]
  rw [weight, hrow, List.getD_eq_getElem?_getD, List.getElem?_map, Label.ofPlayer,
    List.getElem?_map, hs]
  rfl

/-- **A normalized profile**, label by label. -/
theorem isNormalized_iff (p : Profile) :
    p.IsNormalized ↔ (∀ l, 0 ≤ p.weights.get l)
      ∧ ∀ i < p.shape.length, ∑ l with l.player = i, p.weights.get l = 1 := by
  unfold IsNormalized rows
  rw [StrategyTable.rows_eq]
  simp only [List.forall_mem_map, List.mem_range, IsDistribution, Label.total_map_ofPlayer,
    Label.mem_ofPlayer]
  constructor
  · intro h
    refine ⟨fun l => ?_, fun i hi => (h i hi).2⟩
    have hi := l.player_lt
    exact (h l.player hi).1 l rfl
  · intro h i hi
    exact ⟨fun l _ => h.1 l, h.2 i hi⟩

/-- No weight is more than all weights of a player together. -/
theorem IsNormalized.weight_le_one {p : Profile} (hn : p.IsNormalized) (l : Label p.shape) :
    p.weights.get l ≤ 1 := by
  obtain ⟨hnonneg, hsum⟩ := p.isNormalized_iff.mp hn
  have hmem : l ∈ ({k | k.player = l.player} : Finset (Label p.shape)) :=
    Finset.mem_filter.mpr ⟨Finset.mem_univ l, rfl⟩
  exact (Finset.single_le_sum (fun k _ => hnonneg k) hmem).trans_eq (hsum l.player l.player_lt)

end Profile

end SimplicialNash
