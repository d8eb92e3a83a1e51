/-
  SimplicialNash.Game.Table
  ─────────────────────────
  Games stored as a table of payoffs.

  A table has a list of payoffs, one per player, for every pure profile, in
  the order of the profiles' numbers, and the strides that the numbers are
  computed with.  `TableGame.ofPayoffs` checks the data, `TableGame.bimatrix`
  writes them down from matrices; either way what a table needs is kept in the
  type, so every payoff that a player of the game can ask for is in the table
  (`TableGame.isSome_payoff?`).
-/
import SimplicialNash.Fault
import SimplicialNash.Game.Basic
import SimplicialNash.Game.Error

namespace SimplicialNash

open SimplicialNash.Number (numeral)

/-! ## §1. Players -/

/-- A player's name and the names of the player's strategies. -/
structure PlayerInfo where
  name : String
  strategies : List String
deriving DecidableEq, Repr

/-- A player whose strategies are named by their numbers, from one on. -/
def PlayerInfo.numbered (name : String) (count : Nat) : PlayerInfo :=
  ⟨name, (List.range count).map fun s => numeral (s + 1)⟩

/-- The strategy counts of a list of players. -/
def PlayerInfo.shape (players : List PlayerInfo) : Shape :=
  players.map fun p => p.strategies.length

/-! ## §2. The type -/

/-- A game with a list of payoffs for every pure profile. -/
structure TableGame where
  title : String
  players : List PlayerInfo
  /-- The factors by which the players' strategies count in a profile's number. -/
  strides : List Nat
  /-- The payoffs of all players at each pure profile. -/
  payoffs : Array (List Rat)
  players_ne_nil : players ≠ []
  strategies_ne_nil : ∀ p ∈ players, p.strategies ≠ []
  strides_eq : strides = (PlayerInfo.shape players).strides
  size_payoffs : payoffs.size = (PlayerInfo.shape players).profileCount
  length_payoffs : ∀ row ∈ payoffs, row.length = players.length
deriving DecidableEq

namespace TableGame

/-- The players' strategy counts. -/
def shape (g : TableGame) : Shape := PlayerInfo.shape g.players

/-- The number of a pure profile in the table. -/
def profileIndex (g : TableGame) (profile : List Nat) : Nat :=
  PureProfile.numberBy g.strides profile

/-- The pure profile with a number. -/
def pureProfile (g : TableGame) (index : Nat) : List Nat :=
  PureProfile.ofIndex g.shape index

/-- A player's payoff at a pure profile, if the table has it. -/
def payoff? (g : TableGame) (player : Nat) (profile : List Nat) : Option Rat :=
  g.payoffs[g.profileIndex profile]?.bind (·[player]?)

theorem profileIndex_eq (g : TableGame) (profile : List Nat) :
    g.profileIndex profile = PureProfile.index g.shape profile := by
  rw [profileIndex, g.strides_eq, PureProfile.numberBy_strides]
  rfl

/-- The name of a player. -/
def playerName? (g : TableGame) (player : Nat) : Option String :=
  g.players[player]?.map (·.name)

/-- The name of a player's strategy. -/
def strategyName? (g : TableGame) (player strategy : Nat) : Option String :=
  g.players[player]?.bind (·.strategies[strategy]?)

/-! ## §3. Construction -/

/-- What is wrong with the data of a game, if anything. -/
def dataError? (players : List PlayerInfo) (payoffs : List (List Rat)) : Option GameError :=
  if players = [] then some .noPlayers
  else
    match players.findIdx? fun p => p.strategies.isEmpty with
    | some player => some (.noStrategies player)
    | none =>
      match (PlayerInfo.shape players).countProfiles? with
      | none => some .tooLarge
      | some size =>
        if payoffs.length ≠ size then some (.payoffCount size payoffs.length)
        else
          match payoffs.zipIdx.find? fun (row, _) => row.length != players.length with
          | some (row, profile) => some (.payoffWidth profile players.length row.length)
          | none => none

theorem wellFormed_of_dataError? {players : List PlayerInfo} {payoffs : List (List Rat)}
    (h : dataError? players payoffs = none) :
    players ≠ [] ∧ (∀ p ∈ players, p.strategies ≠ [])
      ∧ payoffs.length = (PlayerInfo.shape players).profileCount
      ∧ ∀ row ∈ payoffs, row.length = players.length := by
  unfold dataError? at h
  split at h
  · cases h
  · next hp =>
    split at h
    · cases h
    · next hs =>
      split at h
      · cases h
      · next size hsize =>
        split at h
        · cases h
        · next hlen =>
          split at h
          · cases h
          · next hw =>
            refine ⟨hp, ?_, ?_, ?_⟩
            · intro p hmem
              have := List.findIdx?_eq_none_iff.mp hs p hmem
              simpa using this
            · rw [← Shape.eq_profileCount_of_countProfiles? hsize]
              exact Decidable.not_not.mp hlen
            · intro row hmem
              obtain ⟨i, hi, rfl⟩ := List.getElem_of_mem hmem
              have := List.find?_eq_none.mp hw (payoffs[i], i)
                (List.mem_iff_getElem.mpr ⟨i, by simpa using hi, by simp⟩)
              simpa using this

/-- The game with the given players and payoffs, if they are the data of one. -/
def ofPayoffs (title : String) (players : List PlayerInfo) (payoffs : List (List Rat)) :
    Except GameError TableGame :=
  match h : dataError? players payoffs with
  | some e => .error e
  | none =>
    .ok {
      title := title
      players := players
      strides := (PlayerInfo.shape players).stridesFrom 1
      payoffs := payoffs.toArray
      strides_eq := Shape.stridesFrom_one _
      players_ne_nil := (wellFormed_of_dataError? h).1
      strategies_ne_nil := (wellFormed_of_dataError? h).2.1
      size_payoffs := by simpa using (wellFormed_of_dataError? h).2.2.1
      length_payoffs := by simpa using (wellFormed_of_dataError? h).2.2.2 }

/-- A matrix with the given numbers of rows and columns. -/
def IsMatrix (rows columns : Nat) (matrix : List (List Int)) : Prop :=
  matrix.length = rows ∧ ∀ r ∈ matrix, r.length = columns

instance (rows columns : Nat) (matrix : List (List Int)) :
    Decidable (IsMatrix rows columns matrix) := inferInstanceAs (Decidable (_ ∧ _))

/-- The payoffs of a game of two players from its matrices, column by column. -/
def matrixPayoffs (row column : List (List Int)) : List (List Rat) :=
  let columns := (row.headD []).length
  (List.range columns).flatMap fun c =>
    List.zipWith (fun r k => [(r.getD c 0 : Rat), (k.getD c 0 : Rat)]) row column

theorem shape_matrixPlayers (rows columns : Nat) :
    PlayerInfo.shape [.numbered "Player 1" rows, .numbered "Player 2" columns]
      = [rows, columns] := by
  simp [PlayerInfo.shape, PlayerInfo.numbered]

/-- There is a list of payoffs for every cell of the matrices. -/
theorem length_matrixPayoffs {row column : List (List Int)} {rows : Nat}
    (hrow : row.length = rows) (hcolumn : column.length = rows) :
    (matrixPayoffs row column).length = rows * (row.headD []).length := by
  have hcolumns : ∀ columns : List Nat, (columns.flatMap fun c =>
      List.zipWith (fun r k => [(r.getD c 0 : Rat), (k.getD c 0 : Rat)]) row column).length
        = rows * columns.length := by
    intro columns
    induction columns with
    | nil => rfl
    | cons c columns ih =>
      rw [List.flatMap_cons, List.length_append, ih, List.length_zipWith, hrow, hcolumn,
        Nat.min_self, List.length_cons, Nat.mul_succ, Nat.add_comm]
  unfold matrixPayoffs
  dsimp only
  rw [hcolumns, List.length_range]

/-- A list of payoffs has one for either player. -/
theorem length_of_mem_matrixPayoffs {row column : List (List Int)} {payoffs : List Rat}
    (h : payoffs ∈ matrixPayoffs row column) : payoffs.length = 2 := by
  obtain ⟨c, -, hc⟩ := List.mem_flatMap.mp h
  obtain ⟨i, hi, rfl⟩ := List.mem_iff_getElem.mp hc
  rw [List.getElem_zipWith]
  rfl

/-- The game of two players with the given payoff matrices, whose players and
strategies are named by their numbers. -/
def bimatrix (title : String) (row column : List (List Int)) : Except Fault TableGame :=
  let rows := row.length
  let columns := (row.headD []).length
  if hempty : rows = 0 ∨ columns = 0 then .error .emptyMatrix
  else if hsize : IsMatrix rows columns row ∧ IsMatrix rows columns column then
    if UInt64.size ≤ rows * columns then .error .tooLarge
    else
      .ok {
        title := title
        players := [.numbered "Player 1" rows, .numbered "Player 2" columns]
        strides := [1, rows]
        payoffs := (matrixPayoffs row column).toArray
        players_ne_nil := List.cons_ne_nil _ _
        strategies_ne_nil := by simpa [PlayerInfo.numbered, rows, columns] using hempty
        strides_eq := by simp [shape_matrixPlayers, Shape.strides]
        size_payoffs := by
          rw [List.size_toArray, length_matrixPayoffs hsize.1.1 hsize.2.1, shape_matrixPlayers]
          simp [Shape.profileCount, columns]
        length_payoffs := fun _ h => length_of_mem_matrixPayoffs (List.mem_toArray.mp h) }
  else .error (.raggedMatrix rows columns)

/-- The game with other names, for as many players with as many strategies. -/
def withPlayers (g : TableGame) (players : List PlayerInfo) : Except GameError TableGame :=
  if h : PlayerInfo.shape players = PlayerInfo.shape g.players then
    have length : players.length = g.players.length := by
      simpa [PlayerInfo.shape] using congrArg List.length h
    .ok { g with
      players := players
      players_ne_nil := fun e => g.players_ne_nil (List.eq_nil_of_length_eq_zero (by
        rw [← length, e]; rfl))
      strategies_ne_nil := by
        intro p hp e
        have h0 : 0 ∈ PlayerInfo.shape players :=
          List.mem_map.mpr ⟨p, hp, by simp [e]⟩
        rw [h] at h0
        obtain ⟨q, hq, hz⟩ := List.mem_map.mp h0
        exact g.strategies_ne_nil q hq (List.eq_nil_of_length_eq_zero hz)
      strides_eq := by rw [h]; exact g.strides_eq
      size_payoffs := by rw [h]; exact g.size_payoffs
      length_payoffs := by rw [length]; exact g.length_payoffs }
  else .error .shapeMismatch

/-! ## §4. As a game -/

theorem length_shape (g : TableGame) : g.shape.length = g.players.length := by
  simp [shape, PlayerInfo.shape]

/-- The table answers for every player at every profile of the game. -/
theorem isSome_payoff? (g : TableGame) (player : Nat) (profile : List Nat)
    (hp : player < g.shape.length) (h : g.shape.Admits profile) :
    (g.payoff? player profile).isSome := by
  have hi : g.profileIndex profile < g.payoffs.size := by
    rw [g.size_payoffs, g.profileIndex_eq]
    exact PureProfile.index_lt h
  have hw : player < (g.payoffs[g.profileIndex profile]).length := by
    rw [g.length_payoffs _ (Array.getElem_mem hi), ← g.length_shape]
    exact hp
  simp [payoff?, hi, hw]

/-- The table as a game. -/
def toGame (g : TableGame) : Game :=
  let strides := g.strides
  let payoffs := g.payoffs
  { title := g.title
    shape := g.shape
    playerName := fun player => (g.playerName? player).getD (Game.defaultPlayerName player)
    strategyName := fun player strategy =>
      (g.strategyName? player strategy).getD (Game.defaultStrategyName strategy)
    payoff? := fun player profile =>
      payoffs[PureProfile.numberBy strides profile]?.bind (·[player]?)
    answered := g.isSome_payoff? }

end TableGame

end SimplicialNash
