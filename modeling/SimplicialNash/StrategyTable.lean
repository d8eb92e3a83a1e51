/-
  SimplicialNash.StrategyTable
  ────────────────────────────
  Tables with one entry per label.

  The entries stand in one vector, player by player.  Whatever the solver
  keeps per strategy (weights, flags, step counts) is such a table.

  Main statements: reading gives what was written last, writing at one label
  changes no other (`get_set`, `get_set_ne`), the rows written one after
  another are the data (`flatten_rows`), and reading a list succeeds exactly
  if its length is the size of the shape (`ofList?_isSome_iff`).
-/
import SimplicialNash.Label

namespace SimplicialNash

/-- One entry per label, player by player. -/
structure StrategyTable (shape : Shape) (α : Type) where
  entries : Vector α shape.size
deriving DecidableEq

namespace StrategyTable

variable {shape : Shape} {α β : Type}

/-! ## §1. Construction -/

/-- The table with the same value everywhere. -/
def filled (shape : Shape) (value : α) : StrategyTable shape α :=
  ⟨Vector.replicate shape.size value⟩

/-- The table of a function on labels. -/
def tabulate (f : Label shape → α) : StrategyTable shape α :=
  ⟨Vector.ofFn fun i => f (Label.ofIndex i)⟩

/-- The table with the given entries, if there are as many as it needs. -/
def ofList? (shape : Shape) (data : List α) : Option (StrategyTable shape α) :=
  if h : data.length = shape.size then some ⟨⟨data.toArray, by simp [h]⟩⟩ else none

/-! ## §2. Access -/

/-- The entry at a label. -/
def get (t : StrategyTable shape α) (l : Label shape) : α :=
  have inside := l.index_lt
  t.entries[l.index]

/-- The table with another entry at a label. -/
def set (t : StrategyTable shape α) (l : Label shape) (value : α) : StrategyTable shape α :=
  ⟨t.entries.set l.index value l.index_lt⟩

/-- The table with a function applied to the entry at a label. -/
def modify (t : StrategyTable shape α) (l : Label shape) (f : α → α) : StrategyTable shape α :=
  t.set l (f (t.get l))

/-- The strategy counts, as the distances between the places where the players' entries
begin. -/
def counts (_ : StrategyTable shape α) : Shape :=
  List.zipWith (fun stop start => stop - start) shape.offsets.tail shape.offsets

/-- All entries, player by player. -/
def toList (t : StrategyTable shape α) : List α := t.entries.toList

/-- A list cut into parts of the given lengths. -/
def cut : Shape → List α → List (List α)
  | [], _ => []
  | n :: rest, data => data.take n :: cut rest (data.drop n)

/-- The players' entries, one list per player. -/
def rows (t : StrategyTable shape α) : List (List α) := cut shape t.toList

/-- The entries of one player. -/
def row (t : StrategyTable shape α) (player : Nat) : List α := t.rows.getD player []

/-- The table with a function applied to every entry. -/
def map (f : α → β) (t : StrategyTable shape α) : StrategyTable shape β :=
  ⟨t.entries.map f⟩

/-! ## §3. Laws -/

@[ext] theorem ext_get {a b : StrategyTable shape α} (h : ∀ l, a.get l = b.get l) : a = b := by
  obtain ⟨a⟩ := a
  obtain ⟨b⟩ := b
  congr 1
  apply Vector.ext
  intro i hi
  have := h (Label.ofIndex ⟨i, hi⟩)
  simpa [get] using this

@[simp] theorem get_filled (value : α) (l : Label shape) : (filled shape value).get l = value := by
  simp [filled, get]

@[simp] theorem get_tabulate (f : Label shape → α) (l : Label shape) :
    (tabulate f).get l = f l := by
  simp [tabulate, get]

@[simp] theorem get_map (f : α → β) (t : StrategyTable shape α) (l : Label shape) :
    (t.map f).get l = f (t.get l) := by
  simp [map, get]

/-- Reading gives what was written last. -/
@[simp] theorem get_set (t : StrategyTable shape α) (l : Label shape) (value : α) :
    (t.set l value).get l = value := by
  simp [set, get]

/-- Writing at one label changes no other. -/
theorem get_set_ne (t : StrategyTable shape α) {l m : Label shape} (value : α) (h : l ≠ m) :
    (t.set l value).get m = t.get m := by
  have hne : l.index ≠ m.index := fun e => h (Label.index_injective e)
  simp [set, get, hne]

theorem get_set_eq (t : StrategyTable shape α) (l m : Label shape) (value : α) :
    (t.set l value).get m = if l = m then value else t.get m := by
  split
  · next h => subst h; simp
  · next h => exact get_set_ne t value h

@[simp] theorem length_toList (t : StrategyTable shape α) : t.toList.length = shape.size := by
  simp [toList]

/-- Parts of the right lengths, written one after another, are the list. -/
theorem flatten_cut {shape : Shape} {data : List α} (h : data.length = shape.size) :
    (cut shape data).flatten = data := by
  induction shape generalizing data with
  | nil => simpa [cut, eq_comm] using h
  | cons n rest ih =>
    have hd : (data.drop n).length = Shape.size rest := by
      simp only [Shape.size_cons] at h
      simp [h]
    simp [cut, ih hd]

/-- The rows, written one after another, are the data. -/
theorem flatten_rows (t : StrategyTable shape α) : t.rows.flatten = t.toList :=
  flatten_cut t.length_toList

/-- A list is taken exactly if its length is the size of the shape. -/
theorem ofList?_isSome_iff (shape : Shape) (data : List α) :
    (ofList? shape data).isSome ↔ data.length = shape.size := by
  unfold ofList?
  split <;> simp_all

theorem toList_of_ofList? {shape : Shape} {data : List α} {t : StrategyTable shape α}
    (h : ofList? shape data = some t) : t.toList = data := by
  unfold ofList? at h
  split at h
  · simp only [Option.some.injEq] at h
    subst h
    simp [toList]
  · simp at h

end StrategyTable

end SimplicialNash
