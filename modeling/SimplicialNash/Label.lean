/-
  SimplicialNash.Label
  ────────────────────
  Pairs of a player and one of the player's strategies.

  A shape is the list of the players' strategy counts.  A `Label` is a player
  and a strategy of that player, both counted from zero; it carries the proof
  that the strategy exists, so a table with one entry per label cannot be read
  outside its bounds.  Labels are numbered player by player (`Label.index`),
  and the numbering is a bijection onto the numbers below `shape.size`
  (`Label.ofIndex_index`, `Label.index_ofIndex`).
-/
import SimplicialNash.Number.Digits

namespace SimplicialNash

/-! ## §1. Shapes -/

/-- The players' strategy counts. -/
abbrev Shape := List Nat

/-- The strategy count of a player; zero for a player who does not exist. -/
def Shape.count (shape : Shape) (player : Nat) : Nat := shape.getD player 0

/-- The number of all strategies of all players. -/
def Shape.size : Shape → Nat
  | [] => 0
  | n :: rest => n + Shape.size rest

/-- The number of entries that belong to the players before `player`. -/
def Shape.offset : Shape → Nat → Nat
  | [], _ => 0
  | _ :: _, 0 => 0
  | n :: rest, player + 1 => n + Shape.offset rest player

/-- Running totals of the counts, `total` being there before the first. -/
def Shape.totalsFrom (total : Nat) : Shape → List Nat
  | [] => [total]
  | n :: rest => total :: Shape.totalsFrom (total + n) rest

/-- Where the entries of each player begin, and last of all where they end. -/
def Shape.offsets (shape : Shape) : List Nat := shape.totalsFrom 0

/-- The player and the strategy at a place of the numbering. -/
def Shape.locate : Shape → Nat → Nat × Nat
  | [], i => (0, i)
  | n :: rest, i =>
    if i < n then (0, i)
    else
      let (player, strategy) := Shape.locate rest (i - n)
      (player + 1, strategy)

namespace Shape

@[simp] theorem size_nil : size [] = 0 := rfl

@[simp] theorem size_cons (n : Nat) (rest : Shape) : size (n :: rest) = n + size rest := rfl

@[simp] theorem count_nil (player : Nat) : count [] player = 0 := by
  simp [count]

@[simp] theorem count_cons_zero (n : Nat) (rest : Shape) : count (n :: rest) 0 = n := rfl

@[simp] theorem count_cons_succ (n : Nat) (rest : Shape) (player : Nat) :
    count (n :: rest) (player + 1) = count rest player := by
  simp [count]

/-- Only a player who exists has strategies. -/
theorem lt_length_of_count_pos {shape : Shape} {player : Nat}
    (h : 0 < count shape player) : player < shape.length := by
  by_cases hp : player < shape.length
  · exact hp
  · have : count shape player = 0 := by
      simp [count, List.getD, List.getElem?_eq_none (Nat.le_of_not_lt hp)]
    omega

theorem length_totalsFrom (shape : Shape) (total : Nat) :
    (shape.totalsFrom total).length = shape.length + 1 := by
  induction shape generalizing total with
  | nil => rfl
  | cons n rest ih => rw [totalsFrom, List.length_cons, ih, List.length_cons]

theorem getElem?_totalsFrom {shape : Shape} {player : Nat} (total : Nat)
    (h : player ≤ shape.length) :
    (shape.totalsFrom total)[player]? = some (total + shape.offset player) := by
  induction shape generalizing total player with
  | nil =>
    obtain rfl := Nat.le_zero.mp h
    rfl
  | cons n rest ih =>
    cases player with
    | zero => rfl
    | succ p =>
      rw [totalsFrom, List.getElem?_cons_succ, ih (total + n) (Nat.le_of_succ_le_succ h),
        Nat.add_assoc]
      rfl

/-- The running totals are the numbers of entries before each player. -/
theorem offsets_eq (shape : Shape) :
    shape.offsets = (List.range (shape.length + 1)).map shape.offset := by
  refine List.ext_getElem? fun i => ?_
  rcases Nat.lt_or_ge i (shape.length + 1) with hi | hi
  · rw [offsets, getElem?_totalsFrom 0 (Nat.le_of_lt_succ hi), Nat.zero_add, List.getElem?_map,
      List.getElem?_range hi]
    rfl
  · rw [List.getElem?_eq_none (by rw [offsets, length_totalsFrom]; exact hi),
      List.getElem?_eq_none (by rw [List.length_map, List.length_range]; exact hi)]

/-- Entries of an existing strategy lie inside the numbering. -/
theorem offset_add_lt {shape : Shape} {player strategy : Nat}
    (h : strategy < count shape player) : offset shape player + strategy < shape.size := by
  induction shape generalizing player with
  | nil => simp at h
  | cons n rest ih =>
    cases player with
    | zero => simp only [count_cons_zero] at h; simp only [offset, size_cons]; omega
    | succ p =>
      have := ih (by simpa using h)
      simp only [offset, size_cons]; omega

theorem locate_offset_add {shape : Shape} {player strategy : Nat}
    (h : strategy < count shape player) :
    locate shape (offset shape player + strategy) = (player, strategy) := by
  induction shape generalizing player with
  | nil => simp at h
  | cons n rest ih =>
    cases player with
    | zero => simp only [count_cons_zero] at h; simp [offset, locate, h]
    | succ p =>
      have hi := @ih p (by simpa using h)
      have e : n + offset rest p + strategy - n = offset rest p + strategy := by omega
      have hn : ¬ (n + offset rest p + strategy < n) := by omega
      simp [offset, locate, hn, e, hi]

/-- What stands at a place inside the numbering exists. -/
theorem locate_inRange {shape : Shape} {i : Nat} (h : i < shape.size) :
    (locate shape i).2 < count shape (locate shape i).1 := by
  induction shape generalizing i with
  | nil => simp at h
  | cons n rest ih =>
    by_cases hi : i < n
    · simp [locate, hi]
    · have := ih (i := i - n) (by simp only [size_cons] at h; omega)
      simpa [locate, hi] using this

theorem offset_locate {shape : Shape} {i : Nat} (h : i < shape.size) :
    offset shape (locate shape i).1 + (locate shape i).2 = i := by
  induction shape generalizing i with
  | nil => simp at h
  | cons n rest ih =>
    by_cases hi : i < n
    · simp [locate, hi, offset]
    · have := ih (i := i - n) (by simp only [size_cons] at h; omega)
      simp only [locate, hi, if_false, offset]
      omega

end Shape

/-! ## §2. Labels -/

/-- A player and one of the player's strategies, both counted from zero. -/
@[ext] structure Label (shape : Shape) where
  player : Nat
  strategy : Nat
  /-- The player has this strategy. -/
  inRange : strategy < shape.count player
deriving DecidableEq

namespace Label

variable {shape : Shape}

/-- The label for a player and a strategy, if the player has the strategy. -/
def ofPair? (shape : Shape) (player strategy : Nat) : Option (Label shape) :=
  if h : strategy < shape.count player then some ⟨player, strategy, h⟩ else none

/-- The place of a label when labels are numbered player by player. -/
def index (l : Label shape) : Nat := shape.offset l.player + l.strategy

theorem index_lt (l : Label shape) : l.index < shape.size := Shape.offset_add_lt l.inRange

/-- The label at a place. -/
def ofIndex (i : Fin shape.size) : Label shape :=
  ⟨(shape.locate i).1, (shape.locate i).2, Shape.locate_inRange i.isLt⟩

@[simp] theorem ofIndex_index (l : Label shape) : ofIndex ⟨l.index, l.index_lt⟩ = l := by
  have h := Shape.locate_offset_add l.inRange
  ext <;> simp [ofIndex, index, h]

@[simp] theorem index_ofIndex (i : Fin shape.size) : (ofIndex i).index = i.val := by
  simp [ofIndex, index, Shape.offset_locate i.isLt]

/-- Different labels have different places. -/
theorem index_injective {a b : Label shape} (h : a.index = b.index) : a = b := by
  rw [← ofIndex_index a, ← ofIndex_index b]
  congr 1
  exact Fin.ext h

/-- The labels of one player, in order. -/
def ofPlayer (shape : Shape) (player : Nat) : List (Label shape) :=
  (List.finRange (shape.count player)).map fun s => ⟨player, s.val, s.isLt⟩

/-- All labels, in order. -/
def all (shape : Shape) : List (Label shape) := (List.finRange shape.size).map ofIndex

theorem mem_all (l : Label shape) : l ∈ all shape :=
  List.mem_map.mpr ⟨⟨l.index, l.index_lt⟩, List.mem_finRange _, ofIndex_index l⟩

theorem mem_ofPlayer {l : Label shape} {player : Nat} :
    l ∈ ofPlayer shape player ↔ l.player = player := by
  constructor
  · intro h
    obtain ⟨s, -, rfl⟩ := List.mem_map.mp h
    rfl
  · rintro rfl
    exact List.mem_map.mpr ⟨⟨l.strategy, l.inRange⟩, List.mem_finRange _, rfl⟩

/-- Player and strategy counted from one, as they are shown. -/
def text (l : Label shape) : List Char :=
  '(' :: Number.digits (l.player + 1) ++ ',' :: Number.digits (l.strategy + 1) ++ [')']

end Label

end SimplicialNash
