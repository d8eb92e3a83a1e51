/-
  SimplicialNash.Proofs.Game.Numbering
  ────────────────────────────────────
  **Every row of a table is found under the number of its pure profile.**

  A table is built from its rows, from two matrices, or from another table by giving other
  names (`TableGame.BuiltWith`).  Its strides are counted up player by player, or written
  down for two players; either way a stride is the number of pure profiles of the players
  before (`Shape.getElem?_stridesFrom`), and a pure profile is numbered by its strategies,
  each times the player's stride.

  The pure profiles in the order of their numbers are, for each pure profile of the players
  after the first, all strategies of the first (`PureProfile.all_cons`).  So the cells of
  two matrices, taken column by column, stand where the numbers say
  (`TableGame.matrixPayoffs_eq_cells`).

  Main statement: `TableGame.rows_numbered`.
-/
import Mathlib.Algebra.BigOperators.Group.List.Basic
import Mathlib.Data.Set.Function
import Mathlib.Order.Interval.Set.Defs
import SimplicialNash.Capacity
import SimplicialNash.Proofs.Game.Table

namespace SimplicialNash

variable {shape : Shape}

/-! ## §1. Strides -/

namespace Shape

/-- **A stride** is the product of the strategy counts before it. -/
theorem getElem?_stridesFrom {player : Nat} (hp : player < shape.length) (size : Nat) :
    (stridesFrom size shape)[player]? = some (size * (shape.take player).prod) := by
  induction shape generalizing player size with
  | nil => exact absurd hp (Nat.not_lt_zero player)
  | cons n rest ih =>
    cases player with
    | zero => rw [List.take_zero, List.prod_nil, Nat.mul_one]; rfl
    | succ player =>
      rw [stridesFrom, List.getElem?_cons_succ, ih (Nat.lt_of_succ_lt_succ hp),
        List.take_succ_cons, List.prod_cons, Nat.mul_assoc]

theorem length_strides (shape : Shape) : shape.strides.length = shape.length := by
  induction shape with
  | nil => rfl
  | cons n rest ih => simp [strides, ih]

theorem profileCount_eq_prod (shape : Shape) : shape.profileCount = List.prod shape := by
  induction shape with
  | nil => rfl
  | cons n rest ih => rw [profileCount, ih, List.prod_cons]

end Shape

/-! ## §2. The order of the pure profiles -/

namespace PureProfile

/-- **The first player's strategy varies fastest**: it runs through all strategies for each
pure profile of the others. -/
theorem all_cons (n : Nat) (rest : Shape) :
    all (n :: rest) = (all rest).flatMap fun t => (List.range n).map (· :: t) := by
  have hblocks : ∀ count, (List.range (n * count)).map (ofIndex (n :: rest))
      = ((List.range count).map (ofIndex rest)).flatMap fun t => (List.range n).map (· :: t) := by
    intro count
    induction count with
    | zero => rfl
    | succ count ih =>
      rw [Nat.mul_succ, List.range_add, List.map_append, ih, List.range_succ, List.map_append,
        List.flatMap_append, List.map_map]
      congr 1
      -- within a block the quotient by `n` stays the same
      rw [List.map_singleton, List.flatMap_singleton]
      refine List.map_congr_left fun s hs => ?_
      have hlt := List.mem_range.mp hs
      show (n * count + s) % n :: ofIndex rest ((n * count + s) / n) = s :: ofIndex rest count
      rw [Nat.mul_add_mod, Nat.mod_eq_of_lt hlt, Nat.mul_add_div (Nat.zero_lt_of_lt hlt),
        Nat.div_eq_of_lt hlt, Nat.add_zero]
  exact hblocks rest.profileCount

/-- A number from strides is a sum of products. -/
theorem numberBy_eq_sum (strides profile : List Nat) :
    numberBy strides profile = (List.zipWith (· * ·) profile strides).sum := by
  induction strides generalizing profile with
  | nil => cases profile <;> rfl
  | cons stride strides ih =>
    cases profile with
    | nil => rfl
    | cons s profile => rw [numberBy, ih, List.zipWith_cons_cons, List.sum_cons]

/-- What is listed for all pure profiles stands at their numbers. -/
theorem getElem?_map_all {α : Type} (f : List Nat → α) {profile : List Nat}
    (h : shape.Admits profile) : ((all shape).map f)[index shape profile]? = some (f profile) := by
  rw [all, List.map_map, List.getElem?_map, List.getElem?_range (index_lt h)]
  show some (f (ofIndex shape (index shape profile))) = _
  rw [ofIndex_index h]

end PureProfile

/-! ## §3. How a table comes about -/

namespace TableGame

variable {strides : List Nat} {payoffs : List (List Rat)} {g g' : TableGame}
  {title : String} {row column : List (List Int)} {rows columns : Nat}

/-- The entry of a matrix where a strategy of either player meets. -/
def entry (matrix : List (List Int)) : List Nat → Int
  | [r, c] => (matrix.getD r []).getD c 0
  | _ => 0

/-- The payoffs of both players at all pure profiles, from their matrices. -/
def cells (rows columns : Nat) (row column : List (List Int)) : List (List Rat) :=
  (PureProfile.all [rows, columns]).map fun profile =>
    [(entry row profile : Rat), (entry column profile : Rat)]

/-- How a table comes about, with the strides and the rows that it gets: from its data, from
the cells of matrices, or from another such table with other names, which keeps both. -/
inductive BuiltWith : List Nat → List (List Rat) → TableGame → Prop
  | ofPayoffs {title : String} {players : List PlayerInfo} {payoffs : List (List Rat)}
      {g : TableGame} (h : TableGame.ofPayoffs title players payoffs = .ok g) :
      BuiltWith ((PlayerInfo.shape players).stridesFrom 1) payoffs g
  | bimatrix {title : String} {row column : List (List Int)} {g : TableGame}
      (h : TableGame.bimatrix title row column = .ok g) :
      BuiltWith [1, row.length] (matrixPayoffs row column) g
  | withPlayers {strides : List Nat} {payoffs : List (List Rat)} {players : List PlayerInfo}
      {g g' : TableGame} (hg : BuiltWith strides payoffs g) (h : g.withPlayers players = .ok g') :
      BuiltWith strides payoffs g'

/-- **The cells of two matrices**, column by column, are those at the pure profiles. -/
theorem matrixPayoffs_eq_cells (hrow : IsMatrix rows columns row)
    (hcolumn : IsMatrix rows columns column) (hrows : 0 < rows) :
    matrixPayoffs row column = cells rows columns row column := by
  have hall : PureProfile.all [rows, columns]
      = (List.range columns).flatMap fun c => (List.range rows).map fun r => [r, c] := by
    rw [PureProfile.all_cons, PureProfile.all_cons, List.flatMap_assoc]
    show ([[]] : List (List Nat)).flatMap _ = _
    rw [List.flatMap_singleton, List.flatMap_map]
  unfold matrixPayoffs cells
  dsimp only
  rw [hrow.length_headD hrows, hall, List.map_flatMap]
  congr 1
  funext c
  -- row by row, both matrices have an entry in the column
  refine List.ext_getElem ?_ fun r h _ => ?_
  · simp [hrow.1, hcolumn.1]
  · have hlt : r < row.length ∧ r < column.length := by
      simpa [Nat.lt_min] using h
    simp [entry, hlt.1, hlt.2]

/-! ## §4. Tables from matrices -/

/-- Matrices make the table that is built from their cells. -/
theorem bimatrix_eq_ok_iff_cells (hrows : 0 < rows) (hcolumns : 0 < columns)
    (hrow : IsMatrix rows columns row) (hcolumn : IsMatrix rows columns column) :
    bimatrix title row column = .ok g
      ↔ ofPayoffs title [.numbered "Player 1" rows, .numbered "Player 2" columns]
        (cells rows columns row column) = .ok g := by
  rw [bimatrix_eq_ok_iff, ← matrixPayoffs_eq_cells hrow hcolumn hrows]
  constructor
  · rintro ⟨rows', columns', -, -, hrow', -, hof⟩
    -- the numbers of rows and columns are read off the first matrix
    obtain rfl : rows = rows' := hrow.1.symm.trans hrow'.1
    obtain rfl : columns = columns' :=
      (hrow.length_headD hrows).symm.trans (hrow'.length_headD hrows)
    exact hof
  · intro hof
    exact ⟨rows, columns, hrows, hcolumns, hrow, hcolumn, hof⟩

/-- There is such a table if its rows can be counted. -/
theorem exists_bimatrix_eq_ok (title : String) (hrows : 0 < rows) (hcolumns : 0 < columns)
    (hrow : IsMatrix rows columns row) (hcolumn : IsMatrix rows columns column)
    (hsize : rows * columns < UInt64.size) : ∃ g, bimatrix title row column = .ok g := by
  obtain ⟨g, hg⟩ := exists_ofPayoffs_eq_ok title
    ((dataError?_matrixPayoffs hrows hcolumns hrow hcolumn).mpr hsize)
  exact ⟨g, bimatrix_eq_ok_iff.mpr ⟨rows, columns, hrows, hcolumns, hrow, hcolumn, hg⟩⟩

/-- **What the players get** where a row and a column meet stands there in their matrices. -/
theorem payoff?_bimatrix (hrows : 0 < rows) (hcolumns : 0 < columns)
    (hrow : IsMatrix rows columns row) (hcolumn : IsMatrix rows columns column)
    (hg : bimatrix title row column = .ok g) {r c : Nat} (hr : r < rows) (hc : c < columns) :
    ∃ a b : Int, row[r]?.bind (·[c]?) = some a ∧ column[r]?.bind (·[c]?) = some b
      ∧ g.payoff? 0 [r, c] = some (a : Rat) ∧ g.payoff? 1 [r, c] = some (b : Rat) := by
  obtain ⟨-, -, hplayers, hpayoffs⟩ :=
    ofPayoffs_eq_ok_iff.mp ((bimatrix_eq_ok_iff_cells hrows hcolumns hrow hcolumn).mp hg)
  have hentry : ∀ matrix, IsMatrix rows columns matrix →
      matrix[r]?.bind (·[c]?) = some (entry matrix [r, c]) := by
    intro matrix hmatrix
    have hlt : r < matrix.length := hmatrix.1.symm ▸ hr
    have hlt' : c < matrix[r].length := by rwa [hmatrix.2 _ (List.getElem_mem hlt)]
    simp [entry, hlt, hlt']
  have hshape : g.shape = [rows, columns] := by
    rw [shape, hplayers, shape_matrixPlayers]
  have hadmits : Shape.Admits [rows, columns] [r, c] := ⟨hr, hc, trivial⟩
  have hfound : g.payoffs[g.profileIndex [r, c]]?
      = some [(entry row [r, c] : Rat), entry column [r, c]] := by
    rw [profileIndex_eq, hshape, hpayoffs, List.getElem?_toArray]
    exact PureProfile.getElem?_map_all _ hadmits
  refine ⟨entry row [r, c], entry column [r, c], hentry row hrow, hentry column hcolumn, ?_, ?_⟩
  · rw [payoff?, hfound]
    rfl
  · rw [payoff?, hfound]
    rfl

/-! ## §5. Rows and numbers -/

/-- What is known of a table with the given strides and rows. -/
structure Numbered (strides : List Nat) (payoffs : List (List Rat)) (g : TableGame) : Prop where
  /-- The table has the strides that it was given. -/
  strides_eq : g.strides = strides
  /-- There is one stride per player. -/
  length_strides : strides.length = g.players.length
  /-- A stride is the product of the strategy counts of the players before. -/
  stride : ∀ player < g.players.length,
    strides[player]? = some (g.shape.take player).prod
  /-- The table has the rows that it was given, one for every pure profile. -/
  rows : g.payoffs.toList = payoffs
  length_rows : payoffs.length = g.shape.prod
  /-- Every row has one entry per player. -/
  width : ∀ row ∈ payoffs, row.length = g.players.length
  /-- The pure profiles are counted without overflow. -/
  profileCount : Capacity.profileCount g.shape = .ok g.shape.prod
  /-- A pure profile is numbered by its strategies, each times the player's stride. -/
  profileIndex : ∀ profile, g.profileIndex profile = (List.zipWith (· * ·) profile strides).sum
  /-- The number of a pure profile of the game can be computed. -/
  counted : ∀ profile, g.shape.Admits profile →
    Capacity.profileIndex g profile = .ok (g.profileIndex profile)
  /-- Numbers and pure profiles correspond to each other. -/
  bijOn_profileIndex :
    Set.BijOn g.profileIndex {profile | g.shape.Admits profile} (Set.Iio g.shape.prod)
  bijOn_pureProfile :
    Set.BijOn g.pureProfile (Set.Iio g.shape.prod) {profile | g.shape.Admits profile}
  inverse : Set.InvOn g.pureProfile g.profileIndex {profile | g.shape.Admits profile}
    (Set.Iio g.shape.prod)
  /-- What a player gets at a pure profile of the game is the entry given for it. -/
  payoff : ∀ profile player, g.shape.Admits profile → player < g.players.length →
    ∃ row v, payoffs[g.profileIndex profile]? = some row ∧ row[player]? = some v
      ∧ g.payoff? player profile = some v

/-- A table keeps the strides and the rows that it is given. -/
theorem BuiltWith.kept (h : BuiltWith strides payoffs g) :
    g.strides = strides ∧ g.payoffs.toList = payoffs ∧ g.shape.countProfiles?.isSome := by
  induction h with
  | ofPayoffs h =>
    obtain ⟨-, -, hplayers, hpayoffs⟩ := ofPayoffs_eq_ok_iff.mp h
    refine ⟨?_, by rw [hpayoffs], isSome_countProfiles?_of_ofPayoffs h⟩
    rw [TableGame.strides_eq, hplayers, Shape.stridesFrom_one]
  | bimatrix h =>
    obtain ⟨rows, columns, -, -, hrow, -, hof⟩ := bimatrix_eq_ok_iff.mp h
    obtain ⟨-, -, hplayers, hpayoffs⟩ := ofPayoffs_eq_ok_iff.mp hof
    refine ⟨?_, by rw [hpayoffs], isSome_countProfiles?_of_ofPayoffs hof⟩
    -- the second stride is the number of rows
    rw [TableGame.strides_eq, hplayers, shape_matrixPlayers, hrow.1]
    simp [Shape.strides]
  | withPlayers _ h ih =>
    obtain ⟨-, -, -, hpayoffs⟩ := withPlayers_eq_ok_iff.mp h
    rw [strides_eq_of_withPlayers h, shape_eq_of_withPlayers h, hpayoffs]
    exact ih

/-- **Numbers and pure profiles** correspond to each other, and the rows stand where the
numbers say. -/
theorem BuiltWith.numbered (h : BuiltWith strides payoffs g) : Numbered strides payoffs g := by
  obtain ⟨rfl, rfl, hcount⟩ := h.kept
  have hstrides : g.strides = g.shape.strides := g.strides_eq
  have hprod := Shape.profileCount_eq_prod g.shape
  have hlt : g.shape.profileCount < UInt64.size :=
    Shape.profileCount_lt_of_isSome (PlayerInfo.zero_notMem_shape g.strategies_ne_nil) hcount
  have hlength : g.payoffs.toList.length = g.shape.prod := by
    rw [Array.length_toList, ← hprod]
    exact g.size_payoffs
  have hindex : Set.MapsTo g.profileIndex {s | g.shape.Admits s} (Set.Iio g.shape.prod) :=
    fun s hs => by
      rw [Set.mem_Iio, profileIndex_eq, ← hprod]
      exact PureProfile.index_lt hs
  have hprofile : Set.MapsTo g.pureProfile (Set.Iio g.shape.prod) {s | g.shape.Admits s} :=
    fun i hi => PureProfile.admits_ofIndex (hprod ▸ hi)
  have hinverse : Set.InvOn g.pureProfile g.profileIndex {s | g.shape.Admits s}
      (Set.Iio g.shape.prod) :=
    ⟨fun s hs => by rw [profileIndex_eq]; exact PureProfile.ofIndex_index hs,
      fun i hi => by rw [profileIndex_eq]; exact PureProfile.index_ofIndex (hprod ▸ hi)⟩
  exact {
    strides_eq := rfl
    length_strides := by rw [hstrides, Shape.length_strides, length_shape]
    stride := fun player hp => by
      rw [hstrides, ← Shape.stridesFrom_one, Shape.getElem?_stridesFrom (length_shape g ▸ hp), Nat.one_mul]
    rows := rfl
    length_rows := hlength
    width := fun row hrow => g.length_payoffs row (Array.mem_toList_iff.mp hrow)
    profileCount := by
      rw [Capacity.profileCount, Shape.countProfiles?_eq_some_of_isSome hcount, hprod]
    profileIndex := PureProfile.numberBy_eq_sum g.strides
    counted := fun s hs => by
      have hs : g.profileIndex s < g.shape.prod := hindex hs
      exact Capacity.ifAtMost_eq_ok _ (show _ ≤ UInt64.size - 1 by omega)
    bijOn_profileIndex := hinverse.bijOn hindex hprofile
    bijOn_pureProfile := hinverse.symm.bijOn hprofile hindex
    inverse := hinverse
    payoff := fun s player hs hp => by
      obtain ⟨v, hv⟩ := Option.isSome_iff_exists.mp
        (g.isSome_payoff? player s (g.length_shape.symm ▸ hp) hs)
      obtain ⟨row, hrow, hentry⟩ := Option.bind_eq_some_iff.mp hv
      exact ⟨row, v, by rw [Array.getElem?_toList, hrow], hentry, hv⟩ }

/-- **Every row of a table is found under the number of its pure profile**, whichever way
the table came about; and the table of two matrices is the one that is built from their
cells, in which the players get what their matrices say. -/
theorem rows_numbered :
    (∀ strides payoffs g, BuiltWith strides payoffs g → Numbered strides payoffs g)
    ∧ ∀ title rows columns row column, 0 < rows → 0 < columns →
      IsMatrix rows columns row → IsMatrix rows columns column →
      (∀ g, TableGame.bimatrix title row column = .ok g
        ↔ TableGame.ofPayoffs title [.numbered "Player 1" rows, .numbered "Player 2" columns]
          (cells rows columns row column) = .ok g)
      ∧ (rows * columns < UInt64.size → ∃ g, TableGame.bimatrix title row column = .ok g)
      ∧ ∀ g, TableGame.bimatrix title row column = .ok g → ∀ r < rows, ∀ c < columns,
        ∃ a b : Int, row[r]?.bind (·[c]?) = some a ∧ column[r]?.bind (·[c]?) = some b
          ∧ g.payoff? 0 [r, c] = some (a : Rat) ∧ g.payoff? 1 [r, c] = some (b : Rat) := by
  constructor
  · intro strides payoffs g h
    exact h.numbered
  · intro title rows columns row column hrows hcolumns hrow hcolumn
    refine ⟨fun g => bimatrix_eq_ok_iff_cells hrows hcolumns hrow hcolumn,
      exists_bimatrix_eq_ok title hrows hcolumns hrow hcolumn, ?_⟩
    intro g hg r hr c hc
    exact payoff?_bimatrix hrows hcolumns hrow hcolumn hg hr hc

theorem rows_numbered_sixCells :
    ∃ g, TableGame.bimatrix "" [[1, 2, 3], [4, 5, 6]] [[0, 0, 0], [7, 8, 9]] = .ok g
      ∧ Numbered [1, 2] [[1, 0], [4, 7], [2, 0], [5, 8], [3, 0], [6, 9]] g
      ∧ g.profileIndex [0, 2] = 4 ∧ g.payoff? 0 [0, 1] = some 2 ∧ g.payoff? 1 [1, 2] = some 9 := by
  obtain ⟨-, hexists, hpayoff⟩ := rows_numbered.2 "" 2 3 [[1, 2, 3], [4, 5, 6]]
    [[0, 0, 0], [7, 8, 9]] (by decide) (by decide) (by decide) (by decide)
  obtain ⟨g, hg⟩ := hexists (by decide)
  have hnumbered : Numbered [1, 2] [[1, 0], [4, 7], [2, 0], [5, 8], [3, 0], [6, 9]] g :=
    rows_numbered.1 _ _ g (.bimatrix hg)
  obtain ⟨_, _, ha, -, hfirst, -⟩ := hpayoff g hg 0 (by decide) 1 (by decide)
  obtain ⟨_, _, -, hb, -, hsecond⟩ := hpayoff g hg 1 (by decide) 2 (by decide)
  cases ha
  cases hb
  exact ⟨g, hg, hnumbered, hnumbered.profileIndex [0, 2], hfirst, hsecond⟩

end TableGame

end SimplicialNash
