/-
  SimplicialNash.Proofs.Game.Table
  ────────────────────────────────
  **Which data are those of a table.**

  A table has at least one player, a strategy for every player, a row for every pure
  profile, whose number can be counted, and in every row a payoff for every player
  (`TableGame.dataError?_eq_none_iff`).  Data of this kind are kept as they are
  (`TableGame.ofPayoffs_eq_ok_iff`), also when they are the cells of two matrices
  (`TableGame.bimatrix_eq_ok_iff`) or when the players get other names
  (`TableGame.withPlayers_eq_ok_iff`).

  Matrices are not checked as the data of a table; that they pass this check all the same
  is `TableGame.dataError?_matrixPayoffs`.
-/
import Mathlib.Algebra.GroupWithZero.Nat
import SimplicialNash.Game.Table

namespace SimplicialNash

/-! ## §1. Counting pure profiles -/

namespace Shape

variable {shape : Shape}

theorem profileCount_pos (h0 : 0 ∉ shape) : 0 < shape.profileCount := by
  induction shape with
  | nil => exact Nat.one_pos
  | cons n rest ih =>
    rw [List.mem_cons, not_or] at h0
    exact Nat.mul_pos (Nat.pos_of_ne_zero fun hn => h0.1 hn.symm) (ih h0.2)

/-- There are no fewer pure profiles than a player has strategies. -/
theorem le_profileCount (h0 : 0 ∉ shape) {n : Nat} (hn : n ∈ shape) : n ≤ shape.profileCount := by
  induction shape with
  | nil => cases hn
  | cons m rest ih =>
    rw [List.mem_cons, not_or] at h0
    rcases List.mem_cons.mp hn with rfl | hn
    · exact Nat.le_mul_of_pos_right n (profileCount_pos h0.2)
    · have hm : 0 < m := Nat.pos_of_ne_zero (Ne.symm h0.1)
      exact Nat.le_trans (ih h0.2 hn) (Nat.le_mul_of_pos_left _ hm)

/-- **Pure profiles are counted** if their number is a machine word and every player has a
strategy. -/
theorem countProfiles?_eq_ite (h0 : 0 ∉ shape) :
    shape.countProfiles?
      = if shape.profileCount < UInt64.size then some shape.profileCount else none := by
  -- nothing is counted after a product that is too large
  have hnone : ∀ rest : Shape, rest.foldl (fun total n =>
      total.bind fun t => if t * n < UInt64.size then some (t * n) else none) none = none := by
    intro rest
    induction rest with
    | nil => rfl
    | cons n rest ih => exact ih
  have hfold : ∀ total, total < UInt64.size →
      shape.foldl (fun total n =>
          total.bind fun t => if t * n < UInt64.size then some (t * n) else none) (some total)
        = if total * shape.profileCount < UInt64.size then some (total * shape.profileCount)
          else none := by
    induction shape with
    | nil =>
      intro total htotal
      rw [profileCount, Nat.mul_one, if_pos htotal]
      rfl
    | cons n rest ih =>
      intro total _
      rw [List.mem_cons, not_or] at h0
      rw [profileCount, ← Nat.mul_assoc, List.foldl_cons, Option.bind_some]
      by_cases hpartial : total * n < UInt64.size
      · rw [if_pos hpartial]
        exact ih h0.2 (total * n) hpartial
      · -- the whole product is no smaller than a partial one
        have hle : total * n ≤ total * n * profileCount rest :=
          Nat.le_mul_of_pos_right _ (profileCount_pos h0.2)
        rw [if_neg hpartial, hnone, if_neg (by omega)]
  have hone := hfold 1 (by decide)
  rwa [Nat.one_mul] at hone

theorem countProfiles?_eq_some (h0 : 0 ∉ shape) (h : shape.profileCount < UInt64.size) :
    shape.countProfiles? = some shape.profileCount := by
  rw [countProfiles?_eq_ite h0, if_pos h]

/-- A count is a machine word. -/
theorem profileCount_lt_of_isSome (h0 : 0 ∉ shape) (h : shape.countProfiles?.isSome) :
    shape.profileCount < UInt64.size := by
  refine Nat.lt_of_not_le fun hlarge => ?_
  rw [countProfiles?_eq_ite h0, if_neg (Nat.not_lt.mpr hlarge)] at h
  cases h

/-- A count is that of the pure profiles. -/
theorem countProfiles?_eq_some_of_isSome (h : shape.countProfiles?.isSome) :
    shape.countProfiles? = some shape.profileCount := by
  obtain ⟨total, htotal⟩ := Option.isSome_iff_exists.mp h
  rw [htotal, eq_profileCount_of_countProfiles? htotal]

end Shape

/-! ## §2. The data of a table -/

/-- If every player has a strategy, no count is zero. -/
theorem PlayerInfo.zero_notMem_shape {players : List PlayerInfo}
    (h : ∀ p ∈ players, p.strategies ≠ []) : 0 ∉ shape players := by
  intro h0
  obtain ⟨p, hp, hzero⟩ := List.mem_map.mp h0
  exact h p hp (List.eq_nil_of_length_eq_zero hzero)

namespace TableGame

variable {title : String} {players : List PlayerInfo} {payoffs : List (List Rat)} {g : TableGame}

/-- **The data of a table**, with one row per pure profile and one payoff per player. -/
theorem dataError?_eq_none_iff :
    dataError? players payoffs = none ↔ players ≠ [] ∧ (∀ p ∈ players, p.strategies ≠ [])
      ∧ (PlayerInfo.shape players).countProfiles? = some payoffs.length
      ∧ ∀ row ∈ payoffs, row.length = players.length := by
  constructor
  · intro h
    obtain ⟨hplayers, hstrategies, hlength, hrows⟩ := wellFormed_of_dataError? h
    refine ⟨hplayers, hstrategies, ?_, hrows⟩
    unfold dataError? at h
    rw [if_neg hplayers] at h
    split at h
    · cases h
    · split at h
      · cases h
      · next size hsize =>
        rw [hsize, hlength, Shape.eq_profileCount_of_countProfiles? hsize]
  · rintro ⟨hplayers, hstrategies, hcount, hrows⟩
    have hsome : players.findIdx? (fun p => p.strategies.isEmpty) = none := by
      refine List.findIdx?_eq_none_iff.mpr fun p hp => ?_
      rw [List.isEmpty_eq_false_iff]
      exact hstrategies p hp
    have hwidth : payoffs.zipIdx.find? (fun entry => entry.1.length != players.length) = none := by
      rw [List.find?_eq_none]
      rintro ⟨row, i⟩ hrow
      have hmem : row ∈ payoffs := List.fst_mem_of_mem_zipIdx hrow
      simp [hrows row hmem]
    unfold dataError?
    rw [if_neg hplayers, hsome, hcount, hwidth]
    simp

/-- Tables with the same title, players and rows are the same: their strides are those of
the players. -/
theorem eq_of_data {g' : TableGame} (htitle : g.title = g'.title)
    (hplayers : g.players = g'.players) (hpayoffs : g.payoffs = g'.payoffs) : g = g' := by
  have hstrides : g.strides = g'.strides := by rw [g.strides_eq, g'.strides_eq, hplayers]
  cases g
  cases g'
  simp only at htitle hplayers hstrides hpayoffs
  subst htitle hplayers hstrides hpayoffs
  rfl

/-- **A table keeps its data** as they are. -/
theorem ofPayoffs_eq_ok_iff :
    ofPayoffs title players payoffs = .ok g
      ↔ dataError? players payoffs = none ∧ g.title = title ∧ g.players = players
        ∧ g.payoffs = payoffs.toArray := by
  unfold ofPayoffs
  split
  · next e h =>
    rw [h]
    simp
  · next h =>
    rw [Except.ok.injEq]
    constructor
    · rintro rfl
      exact ⟨h, rfl, rfl, rfl⟩
    · rintro ⟨-, htitle, hplayers, hpayoffs⟩
      exact eq_of_data htitle.symm hplayers.symm hpayoffs.symm

/-- Valid data are those of a table. -/
theorem exists_ofPayoffs_eq_ok (title : String) (h : dataError? players payoffs = none) :
    ∃ g, ofPayoffs title players payoffs = .ok g := by
  unfold ofPayoffs
  split
  · next e he =>
    rw [h] at he
    cases he
  · exact ⟨_, rfl⟩

/-- The pure profiles of a table that is built from its data have been counted. -/
theorem isSome_countProfiles?_of_ofPayoffs (h : ofPayoffs title players payoffs = .ok g) :
    g.shape.countProfiles?.isSome := by
  obtain ⟨hdata, -, hplayers, -⟩ := ofPayoffs_eq_ok_iff.mp h
  obtain ⟨-, -, hcount, -⟩ := dataError?_eq_none_iff.mp hdata
  rw [shape, hplayers, hcount]
  rfl

/-- **A table is built again** from what it holds, if its pure profiles can be counted. -/
theorem ofPayoffs_self (h : g.shape.countProfiles?.isSome) :
    ofPayoffs g.title g.players g.payoffs.toList = .ok g := by
  refine ofPayoffs_eq_ok_iff.mpr ⟨?_, rfl, rfl, g.payoffs.toArray_toList.symm⟩
  refine dataError?_eq_none_iff.mpr ⟨g.players_ne_nil, g.strategies_ne_nil, ?_, ?_⟩
  · rw [Array.length_toList, g.size_payoffs]
    exact Shape.countProfiles?_eq_some_of_isSome h
  · exact fun row hrow => g.length_payoffs row (Array.mem_toList_iff.mp hrow)

/-! ## §3. Tables from matrices, and other names -/

theorem IsMatrix.length_headD {rows columns : Nat} {matrix : List (List Int)}
    (h : IsMatrix rows columns matrix) (hrows : 0 < rows) : (matrix.headD []).length = columns := by
  cases matrix with
  | nil => exact absurd h.1 (Nat.ne_of_lt hrows)
  | cons r matrix => exact h.2 r List.mem_cons_self

/-- The cells of matrices are the data of a table, if they can be counted. -/
theorem dataError?_matrixPayoffs {rows columns : Nat} {row column : List (List Int)}
    (hrows : 0 < rows) (hcolumns : 0 < columns) (hrow : IsMatrix rows columns row)
    (hcolumn : IsMatrix rows columns column) :
    dataError? [.numbered "Player 1" rows, .numbered "Player 2" columns]
      (matrixPayoffs row column) = none ↔ rows * columns < UInt64.size := by
  have h0 : 0 ∉ ([rows, columns] : Shape) := by
    simp
    omega
  have hlength : (matrixPayoffs row column).length = rows * columns := by
    rw [length_matrixPayoffs hrow.1 hcolumn.1, hrow.length_headD hrows]
  have hcount : Shape.profileCount [rows, columns] = rows * columns := by
    show rows * (columns * 1) = _
    rw [Nat.mul_one]
  rw [dataError?_eq_none_iff, shape_matrixPlayers, Shape.countProfiles?_eq_ite h0, hcount, hlength]
  constructor
  · rintro ⟨-, -, hcounted, -⟩
    refine Decidable.byContradiction fun hlarge => ?_
    rw [if_neg hlarge] at hcounted
    cases hcounted
  · intro hlt
    refine ⟨List.cons_ne_nil _ _, ?_, if_pos hlt, fun _ => length_of_mem_matrixPayoffs⟩
    simp [PlayerInfo.numbered]
    omega

/-- **Matrices make a table** if both have the same size, which is not zero, and their cells
are the data of a table. -/
theorem bimatrix_eq_ok_iff {row column : List (List Int)} :
    bimatrix title row column = .ok g ↔ ∃ rows columns, 0 < rows ∧ 0 < columns
      ∧ IsMatrix rows columns row ∧ IsMatrix rows columns column
      ∧ ofPayoffs title [.numbered "Player 1" rows, .numbered "Player 2" columns]
        (matrixPayoffs row column) = .ok g := by
  unfold bimatrix
  dsimp only
  constructor
  · intro h
    split at h
    · cases h
    · next hempty =>
      rw [not_or] at hempty
      split at h
      · next hsize =>
        split at h
        · cases h
        · next hlt =>
          obtain rfl := Except.ok.inj h
          have hrows := Nat.pos_of_ne_zero hempty.1
          have hcolumns := Nat.pos_of_ne_zero hempty.2
          refine ⟨_, _, hrows, hcolumns, hsize.1, hsize.2,
            ofPayoffs_eq_ok_iff.mpr ⟨?_, rfl, rfl, rfl⟩⟩
          exact (dataError?_matrixPayoffs hrows hcolumns hsize.1 hsize.2).mpr (Nat.lt_of_not_le hlt)
      · cases h
  · rintro ⟨rows, columns, hrows, hcolumns, hrow, hcolumn, hof⟩
    obtain ⟨hdata, htitle, hplayers, hpayoffs⟩ := ofPayoffs_eq_ok_iff.mp hof
    have hlt := (dataError?_matrixPayoffs hrows hcolumns hrow hcolumn).mp hdata
    obtain rfl := hrow.1
    obtain rfl := hrow.length_headD hrows
    rw [dif_neg (by omega), dif_pos ⟨hrow, hcolumn⟩, if_neg (Nat.not_le.mpr hlt)]
    exact congrArg Except.ok (eq_of_data htitle.symm hplayers.symm hpayoffs.symm)

/-- **Other names** leave everything else as it is. -/
theorem withPlayers_eq_ok_iff {g' : TableGame} :
    g.withPlayers players = .ok g' ↔ PlayerInfo.shape players = g.shape ∧ g'.title = g.title
      ∧ g'.players = players ∧ g'.payoffs = g.payoffs := by
  unfold withPlayers
  constructor
  · intro h
    split at h
    · next hshape =>
      obtain rfl := Except.ok.inj h
      exact ⟨hshape, rfl, rfl, rfl⟩
    · cases h
  · rintro ⟨hshape, htitle, rfl, hpayoffs⟩
    rw [dif_pos (show PlayerInfo.shape g'.players = PlayerInfo.shape g.players from hshape)]
    exact congrArg Except.ok (eq_of_data htitle.symm rfl hpayoffs.symm)

/-- Other names do not change the shape. -/
theorem shape_eq_of_withPlayers {g' : TableGame} (h : g.withPlayers players = .ok g') :
    g'.shape = g.shape := by
  obtain ⟨hshape, -, rfl, -⟩ := withPlayers_eq_ok_iff.mp h
  exact hshape

/-- Other names do not change the strides. -/
theorem strides_eq_of_withPlayers {g' : TableGame} (h : g.withPlayers players = .ok g') :
    g'.strides = g.strides := by
  rw [g'.strides_eq, g.strides_eq]
  exact congrArg Shape.strides (shape_eq_of_withPlayers h)

end TableGame

end SimplicialNash
