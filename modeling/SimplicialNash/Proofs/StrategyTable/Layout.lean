/-
  SimplicialNash.Proofs.StrategyTable.Layout
  ──────────────────────────────────────────
  **The layout of tables.**

  The entries of a player begin where those of the players before end
  (`Shape.offsets_eq_sums`), and the distances between these places are the strategy counts
  (`StrategyTable.counts_eq`).  So the place of every label is inside the part
  of its own player, which is inside the data, and different labels have different
  places: what is written at one of them is one entry of the data (`toList_set`).

  After any writes, an entry is the last one that was written at its label, or what it was
  at first (`get_writeAll`).

  Main statement, for every shape, players without strategies included, and every list of
  data: `ofList?_layout`.
-/
import Mathlib.Data.Nat.Cast.Basic
import SimplicialNash.Capacity
import SimplicialNash.Proofs.StrategyTable

namespace SimplicialNash

/-! ## §1. Where the players' entries stand -/

namespace Shape

variable {shape : Shape} {i : Nat}

theorem size_eq_sum (shape : Shape) : shape.size = shape.sum := by
  induction shape with
  | nil => rfl
  | cons n rest ih => rw [size_cons, List.sum_cons, ih]

theorem offset_eq_sum_take (shape : Shape) (i : Nat) : shape.offset i = (shape.take i).sum := by
  induction shape generalizing i with
  | nil => rw [List.take_nil]; rfl
  | cons n rest ih =>
    cases i with
    | zero => rfl
    | succ i => rw [List.take_succ_cons, List.sum_cons, ← ih]; rfl

/-- The entries of the next player begin where those of a player end. -/
theorem offset_succ (hi : i < shape.length) :
    shape.offset (i + 1) = shape.offset i + shape.count i := by
  rw [offset_eq_sum_take, List.sum_take_succ shape i hi, ← offset_eq_sum_take,
    count_eq_getElem hi]

theorem offset_le_size (shape : Shape) (i : Nat) : shape.offset i ≤ shape.size := by
  rw [offset_eq_sum_take, size_eq_sum]
  calc (shape.take i).sum ≤ (shape.take i).sum + (shape.drop i).sum := Nat.le_add_right _ _
    _ = shape.sum := by rw [← List.sum_append, List.take_append_drop]

/-- Where entries begin, as sums of the strategy counts before. -/
theorem offsets_eq_sums (shape : Shape) :
    shape.offsets = (List.range (shape.length + 1)).map fun i => (shape.take i).sum := by
  rw [offsets_eq, funext (offset_eq_sum_take shape)]

/-- The strategy counts are the distances between the places where entries begin. -/
theorem zipWith_sub_totalsFrom (shape : Shape) (total : Nat) :
    List.zipWith (fun stop start => stop - start) (shape.totalsFrom total).tail
      (shape.totalsFrom total) = shape := by
  induction shape generalizing total with
  | nil => rfl
  | cons n rest ih =>
    cases rest with
    | nil => simp [totalsFrom]
    | cons m rest => simpa [totalsFrom] using ih (total + n)

end Shape

namespace Label

variable {shape : Shape}

/-- The place of a label is in the part of its player. -/
theorem index_lt_offset_succ (l : Label shape) : l.index < shape.offset (l.player + 1) := by
  rw [Shape.offset_succ l.player_lt, index]
  exact Nat.add_lt_add_left l.inRange _

/-- A player and one of the player's strategies are a label. -/
theorem exists_ofPair?_eq_some {player strategy count : Nat} (hcount : shape[player]? = some count)
    (hs : strategy < count) :
    ∃ l : Label shape, ofPair? shape player strategy = some l
      ∧ l.player = player ∧ l.strategy = strategy := by
  obtain ⟨hp, rfl⟩ := List.getElem?_eq_some_iff.mp hcount
  rw [← Shape.count_eq_getElem hp] at hs
  exact ⟨⟨player, strategy, hs⟩, dif_pos hs, rfl, rfl⟩

end Label

/-! ## §2. Rows -/

namespace StrategyTable

variable {shape : Shape} {α : Type}

theorem map_length_cut {data : List α} (h : data.length = shape.size) :
    (cut shape data).map List.length = shape := by
  induction shape generalizing data with
  | nil => rfl
  | cons n rest ih =>
    rw [Shape.size_cons] at h
    have hdrop : (data.drop n).length = Shape.size rest := by rw [List.length_drop]; omega
    rw [cut, List.map_cons, ih hdrop, List.length_take, Nat.min_eq_left (by omega)]

/-- Rows that are written one after another are found again. -/
theorem cut_flatten (rows : List (List α)) : cut (rows.map List.length) rows.flatten = rows := by
  induction rows with
  | nil => rfl
  | cons row rows ih =>
    rw [List.map_cons, List.flatten_cons, cut, List.take_left, List.drop_left, ih]

/-- **The shape of a table** is what its offsets say. -/
theorem counts_eq (t : StrategyTable shape α) : t.counts = shape := shape.zipWith_sub_totalsFrom 0

/-- **As many entries as strategies** are in the row of each player. -/
theorem map_length_rows (t : StrategyTable shape α) : t.rows.map List.length = shape :=
  map_length_cut t.length_toList

/-- The row of a player is the player's part of the data. -/
theorem row_eq (t : StrategyTable shape α) {player : Nat} (hp : player < shape.length) :
    t.row player = (t.toList.drop (shape.offset player)).take (shape.count player) := by
  rw [row, rows, List.getD_eq_getElem?_getD, getElem?_cut hp, Option.getD_some]

/-! ## §3. Writes -/

/-- A write changes one entry of the data. -/
theorem toList_set (t : StrategyTable shape α) (l : Label shape) (value : α) :
    (t.set l value).toList = t.toList.set l.index value := by
  rw [toList, set, Vector.toList_set, toList]

/-- The table after writes, one after another. -/
def writeAll (t : StrategyTable shape α) (writes : List (Label shape × α)) :
    StrategyTable shape α :=
  writes.foldl (fun t write => t.set write.1 write.2) t

/-- What was written last at a label, if anything was. -/
def lastWritten? (writes : List (Label shape × α)) (l : Label shape) : Option α :=
  (writes.reverse.find? (·.1 = l)).map Prod.snd

theorem writeAll_concat (t : StrategyTable shape α) (writes : List (Label shape × α))
    (write : Label shape × α) :
    t.writeAll (writes ++ [write]) = (t.writeAll writes).set write.1 write.2 := by
  rw [writeAll, List.foldl_append]
  rfl

theorem lastWritten?_concat (writes : List (Label shape × α)) (write : Label shape × α)
    (l : Label shape) :
    lastWritten? (writes ++ [write]) l
      = if write.1 = l then some write.2 else lastWritten? writes l := by
  rw [lastWritten?, List.reverse_append, List.reverse_singleton, List.singleton_append,
    List.find?_cons]
  by_cases h : write.1 = l
  · simp [h]
  · simp [h, lastWritten?]

/-- **An entry is what was written last at its label**, or what it was at first. -/
theorem get_writeAll (t : StrategyTable shape α) (writes : List (Label shape × α))
    (l : Label shape) : (t.writeAll writes).get l = (lastWritten? writes l).getD (t.get l) := by
  -- from the last write backwards, as the last one decides
  induction writes using List.reverseRecOn with
  | nil => rfl
  | append_singleton writes write ih =>
    rw [writeAll_concat, get_set_eq, lastWritten?_concat, ih]
    split <;> rfl

/-- All that writes do to the data is to replace entries at the places of their labels. -/
theorem toList_writeAll (t : StrategyTable shape α) (writes : List (Label shape × α)) :
    (t.writeAll writes).toList
      = writes.foldl (fun data write => data.set write.1.index write.2) t.toList := by
  induction writes generalizing t with
  | nil => rfl
  | cons write writes ih =>
    rw [List.foldl_cons, ← toList_set, ← ih]
    rfl

/-! ## §4. Tables of data -/

/-- How a table stands in its data. -/
structure LaidOut (data : List α) (t : StrategyTable shape α) : Prop where
  /-- The shape is found again from where the players' entries begin. -/
  counts : t.counts = shape
  /-- The entries of a player begin where those of all players before end. -/
  offsets : shape.offsets = (List.range (shape.length + 1)).map fun i => (shape.take i).sum
  /-- The row of each player has as many entries as the player has strategies. -/
  lengths : t.rows.map List.length = shape
  /-- The row of a player is the player's part of the data. -/
  row : ∀ player < shape.length,
    t.row player = (data.drop (shape.offset player)).take (shape.count player)
  /-- The data are the rows, one after another. -/
  flatten : t.rows.flatten = data
  /-- Every strategy of every player has its entry in the player's part of the data. -/
  inside : ∀ player strategy count, shape[player]? = some count → strategy < count →
    ∃ l : Label shape, Label.ofPair? shape player strategy = some l
      ∧ l.index = shape.offset player + strategy ∧ l.index < shape.offset (player + 1)
      ∧ shape.offset (player + 1) ≤ data.length ∧ data[l.index]? = some (t.get l)

theorem laidOut (t : StrategyTable shape α) : LaidOut t.toList t where
  counts := t.counts_eq
  offsets := shape.offsets_eq_sums
  lengths := t.map_length_rows
  row _ hp := t.row_eq hp
  flatten := t.flatten_rows
  inside player strategy count hcount hs := by
    obtain ⟨l, hl, rfl, rfl⟩ := Label.exists_ofPair?_eq_some hcount hs
    refine ⟨l, hl, rfl, l.index_lt_offset_succ, ?_, t.getElem?_toList l⟩
    rw [length_toList]
    exact shape.offset_le_size _

/-- A list of data that can be counted is taken exactly if it has the size of the shape, also
where the size of the shape is too large to be counted. -/
theorem exists_capacity_ofList?_iff {data : List α} (hdata : data.length ≤ Capacity.maxCount) :
    (∃ t, Capacity.ofList? shape data = .ok (some t)) ↔ data.length = shape.size := by
  rw [← ofList?_isSome_iff, Option.isSome_iff_exists]
  constructor
  · rintro ⟨t, ht⟩
    exact ⟨t, (Capacity.eq_of_ifAtMost_eq_ok ht).1.symm⟩
  · rintro ⟨t, ht⟩
    have hsize := (ofList?_isSome_iff shape data).mp (Option.isSome_of_eq_some ht)
    exact ⟨t, by rw [Capacity.ofList?, ht, Capacity.ifAtMost_eq_ok _ (hsize ▸ hdata)]⟩

/-- **Data of the size of the shape are a table**, and no other data are.  The table has that
shape, its rows are the data, and each of its entries is in the part of its player; writes
leave that so.  After any writes, an entry is what was written last at its label, or what it
was at first; and a write at one label changes no entry but its own. -/
theorem ofList?_layout (shape : Shape) (data : List α) :
    ((ofList? shape data).isSome ↔ data.length = shape.sum)
    ∧ (data.length ≤ Capacity.maxCount →
      ((∃ t, Capacity.ofList? shape data = .ok (some t)) ↔ data.length = shape.sum))
    ∧ ∀ t, ofList? shape data = some t → LaidOut data t ∧ ∀ writes : List (Label shape × α),
      LaidOut (writes.foldl (fun data write => data.set write.1.index write.2) data)
        (t.writeAll writes)
      ∧ (∀ l, (t.writeAll writes).get l = (lastWritten? writes l).getD (t.get l))
      ∧ ∀ l value m, m ≠ l →
        ((t.writeAll writes).set l value).get m = (t.writeAll writes).get m := by
  rw [← shape.size_eq_sum]
  refine ⟨ofList?_isSome_iff shape data, exists_capacity_ofList?_iff, ?_⟩
  intro t ht
  obtain rfl := toList_of_ofList? ht
  refine ⟨t.laidOut, fun writes => ⟨?_, t.get_writeAll writes, ?_⟩⟩
  · rw [← toList_writeAll]
    exact laidOut _
  · intro l value m hm
    exact get_set_ne _ value hm.symm

/-- Between a player with two strategies and one with a single strategy stands a player without
any; the first player's last entry is written twice, the last player's once. -/
def writesAroundNobody : List (Label [2, 0, 1] × Nat) :=
  [(⟨0, 1, by decide⟩, 8), (⟨2, 0, by decide⟩, 3), (⟨0, 1, by decide⟩, 9)]

theorem ofList?_layout_aroundNobody :
    ∃ t, Capacity.ofList? [2, 0, 1] [5, 6, 7] = .ok (some t)
      ∧ LaidOut [5, 6, 7] t
      ∧ LaidOut [5, 9, 3] (t.writeAll writesAroundNobody)
      ∧ (t.writeAll writesAroundNobody).get ⟨0, 1, by decide⟩ = 9
      ∧ ((t.writeAll writesAroundNobody).set ⟨2, 0, by decide⟩ 4).get ⟨0, 1, by decide⟩ = 9 := by
  obtain ⟨-, hcounted, hlayout⟩ := ofList?_layout [2, 0, 1] [5, 6, 7]
  obtain ⟨t, ht⟩ := (hcounted (by decide)).mpr rfl
  obtain ⟨hlaid, hwrites⟩ := hlayout t (Capacity.eq_of_ifAtMost_eq_ok ht).1.symm
  obtain ⟨hafter, hget, hframe⟩ := hwrites writesAroundNobody
  exact ⟨t, ht, hlaid, hafter, hget _, (hframe _ 4 _ (by decide)).trans (hget _)⟩

end StrategyTable

end SimplicialNash
