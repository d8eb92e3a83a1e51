/-
  SimplicialNash.Proofs.Profile.Defect
  ────────────────────────────────────
  **Which lines are profiles, and what is wrong with the others.**

  A line describes a profile if its last fields, as many as the shape has strategies, are
  numbers that are probability distributions player by player; one more field in front
  is allowed (`Profile.Describes`).  Any other line has a first defect
  (`Profile.LineDefect`): a wrong count of fields, then a field that is no number, then,
  player by player, a negative weight and a wrong total.  There is no answer at all if the
  weights cannot be counted, or if, before any such field, one has the least exponent
  (`Profile.LineFault`).

  Each of the reader's stages goes over a list up to the first item that fails
  (`exists_first_or_forall`), so one of the three is found for every line
  (`Profile.line_trichotomy`), and the reader answers accordingly.

  In a file every line that is not blank is read by itself, up to the first one without an
  answer (`Profile.mem_results_readLines`).  Its lines do not depend on each other's texts
  (`Text.getElem?_lines_set`), so another text in one of them leaves what is read from the
  others as it was, unless reading stops there.

  Main statement: `Profile.readLine_verdicts`.
-/
import Mathlib.Data.List.DropRight
import SimplicialNash.Capacity
import SimplicialNash.Proofs.Number.Grammar
import SimplicialNash.Proofs.Profile.Text

namespace SimplicialNash

open SimplicialNash.Number SimplicialNash.Text

/-- Either all items of a list have a property, or there is a first one without it. -/
theorem exists_first_or_forall {α : Type} (p : α → Prop) [DecidablePred p] (xs : List α) :
    (∀ x ∈ xs, p x)
      ∨ ∃ before x after, xs = before ++ x :: after ∧ (∀ y ∈ before, p y) ∧ ¬ p x := by
  cases h : xs.find? fun x => !decide (p x) with
  | none =>
    left
    intro x hx
    simpa using List.find?_eq_none.mp h x hx
  | some x =>
    obtain ⟨hx, before, after, hxs, hbefore⟩ := List.find?_eq_some_iff_append.mp h
    right
    refine ⟨before, x, after, hxs, fun y hy => ?_, by simpa using hx⟩
    simpa using hbefore y hy

namespace Profile

variable {shape : Shape} {p : Profile} {e : ProfileError} {fs : List (List Char)} {qs : List Rat}
  {player : Nat} {row : List Rat}

/-! ## §1. Lines that describe a profile, and defects -/

/-- The fields of a line: what stands between its commas, without the blanks around it. -/
def lineFields (line : String) : List (List Char) := (fields ',' (trim line.toList)).map trim

/-- There is a field for every weight, or one more. -/
def HasFieldCount (shape : Shape) (fs : List (List Char)) : Prop :=
  fs.length = shape.size ∨ fs.length = shape.size + 1

instance : Decidable (HasFieldCount shape fs) := inferInstanceAs (Decidable (_ ∨ _))

/-- The weights can be counted, and one field more for a label. -/
def IsCounted (shape : Shape) : Prop := shape.size + 1 ≤ Capacity.maxCount

instance : Decidable (IsCounted shape) := inferInstanceAs (Decidable (_ ≤ _))

/-- The last fields of a line are the weights of a profile. -/
structure Describes (shape : Shape) (fs : List (List Char)) (p : Profile) : Prop where
  fieldCount : HasFieldCount shape fs
  shape_eq : p.shape = shape
  /-- The last fields are numbers, and these are the weights in their order. -/
  numbers : (fs.rtake shape.size).map readRational? = p.values.map some
  nonneg : ∀ w ∈ p.values, 0 ≤ w
  total_eq_one : ∀ row ∈ StrategyTable.cut shape p.values, total row = 1

/-- What is wrong with a player's weights: the first one below zero, or the total if there
is none. -/
inductive RowDefect (player : Nat) : List Rat → ProfileError → Prop
  | negative {front back : List Rat} {w : Rat} (hfront : ∀ v ∈ front, 0 ≤ v) (hw : w < 0) :
      RowDefect player (front ++ w :: back) (.negativeWeight player front.length)
  | total {row : List Rat} (hrow : ∀ w ∈ row, 0 ≤ w) (htotal : total row ≠ 1) :
      RowDefect player row (.notNormalized player (total row))

/-- What is wrong with a line, the first of all that may be: the count of its fields, the
first field that is no number, the weights of the first player with a defect. -/
inductive LineDefect (shape : Shape) (fs : List (List Char)) : ProfileError → Prop
  | count (h : ¬ HasFieldCount shape fs) : LineDefect shape fs (.wrongLength shape.size fs.length)
  | field {before after : List (List Char)} {f : List Char} (h : HasFieldCount shape fs)
      (hfs : fs.rtake shape.size = before ++ f :: after)
      (hbefore : ∀ g ∈ before, (readRational? g).isSome) (hf : readRational f = .ok none) :
      LineDefect shape fs (.invalidValue (String.ofList f))
  | row {qs : List Rat} {before after : List (List Rat)} {row : List Rat} {e : ProfileError}
      (h : HasFieldCount shape fs) (hqs : (fs.rtake shape.size).map readRational? = qs.map some)
      (hrows : StrategyTable.cut shape qs = before ++ row :: after)
      (hbefore : ∀ r ∈ before, IsDistribution r) (hrow : RowDefect before.length row e) :
      LineDefect shape fs e

/-- Why there is no answer for a line: the weights cannot be counted, or the first field that
is no number has the least exponent. -/
inductive LineFault (shape : Shape) (fs : List (List Char)) : Prop
  | count (h : ¬ IsCounted shape) : LineFault shape fs
  | field {before after : List (List Char)} {f : List Char} (h : HasFieldCount shape fs)
      (hfs : fs.rtake shape.size = before ++ f :: after)
      (hbefore : ∀ g ∈ before, (readRational? g).isSome) (hslash : '/' ∉ trim f)
      (hf : HasLeastExponent (trim f)) : LineFault shape fs

/-! ## §2. Rows -/

theorem isDistribution_or_rowDefect (player : Nat) (row : List Rat) :
    IsDistribution row ∨ ∃ e, RowDefect player row e := by
  rcases exists_first_or_forall (0 ≤ ·) row with hrow | ⟨front, w, back, rfl, hfront, hw⟩
  · by_cases htotal : total row = 1
    · exact Or.inl ⟨hrow, htotal⟩
    · exact Or.inr ⟨_, .total hrow htotal⟩
  · exact Or.inr ⟨_, .negative hfront (Rat.not_le.mp hw)⟩

/-- **A defect of a row** is what the reader says of it. -/
theorem rowError?_of_rowDefect (h : RowDefect player row e) : rowError? player row = some e := by
  unfold rowError?
  cases h with
  | @negative front back w hfront hw =>
    have hnone : front.findIdx? (· < 0) = none := by
      refine List.findIdx?_eq_none_iff.mpr fun v hv => ?_
      exact decide_eq_false (Rat.not_lt.mpr (hfront v hv))
    have hindex : (front ++ w :: back).findIdx? (· < 0) = some front.length := by
      rw [List.findIdx?_append, hnone, List.findIdx?_cons, decide_eq_true hw]
      simp
    rw [hindex]
  | total hrow htotal =>
    have hnone : row.findIdx? (· < 0) = none := by
      refine List.findIdx?_eq_none_iff.mpr fun w hw => ?_
      exact decide_eq_false (Rat.not_lt.mpr (hrow w hw))
    rw [hnone]
    exact if_neg htotal

/-- Rows that are distributions are passed over, and the players counted on. -/
theorem rowsError?_append {before : List (List Rat)} (h : ∀ r ∈ before, IsDistribution r)
    (player : Nat) (rows : List (List Rat)) :
    rowsError? player (before ++ rows) = rowsError? (player + before.length) rows := by
  induction before generalizing player with
  | nil => rfl
  | cons row before ih =>
    obtain ⟨hrow, hbefore⟩ := List.forall_mem_cons.mp h
    have hplayer : player + 1 + before.length = player + (before.length + 1) := by omega
    rw [List.cons_append, rowsError?, (rowError?_eq_none_iff player row).mpr hrow]
    show rowsError? (player + 1) (before ++ rows) = _
    rw [ih hbefore, hplayer]
    rfl

/-! ## §3. The stages of the reader -/

/-- Fields that are all numbers have values. -/
theorem exists_values (h : ∀ f ∈ fs, (readRational? f).isSome) :
    ∃ qs : List Rat, fs.map readRational? = qs.map some := by
  induction fs with
  | nil => exact ⟨[], rfl⟩
  | cons f fs ih =>
    obtain ⟨hf, hfs⟩ := List.forall_mem_cons.mp h
    obtain ⟨q, hq⟩ := Option.isSome_iff_exists.mp hf
    obtain ⟨qs, hqs⟩ := ih hfs
    refine ⟨q :: qs, ?_⟩
    rw [List.map_cons, List.map_cons, hq, hqs]

/-- Fields that are numbers are read one by one, whatever comes after them. -/
theorem readValues_append (h : fs.map readRational? = qs.map some) (rest : List (List Char)) :
    readValues (fs ++ rest) = (readValues rest).map (qs ++ ·) := by
  induction fs generalizing qs with
  | nil =>
    obtain rfl : qs = [] := List.map_eq_nil_iff.mp h.symm
    rw [List.nil_append]
    cases readValues rest <;> rfl
  | cons f fs ih =>
    cases qs with
    | nil => cases h
    | cons q qs =>
      obtain ⟨hf, hfs⟩ := List.cons.inj h
      rw [List.cons_append, readValues, readRational?_eq_some_iff.mp hf]
      dsimp only
      rw [ih hfs]
      cases readValues rest <;> rfl

theorem readValues_eq_ok (h : fs.map readRational? = qs.map some) : readValues fs = .ok qs := by
  have hread := readValues_append h []
  rw [List.append_nil] at hread
  rw [hread, readValues, Except.map, List.append_nil]

/-- The reader of the fields stops at the first one that is no number. -/
theorem readValues_eq_error (h : ∀ f ∈ fs, (readRational? f).isSome) {rest : List (List Char)}
    (he : readValues rest = .error e) : readValues (fs ++ rest) = .error e := by
  obtain ⟨qs, hqs⟩ := exists_values h
  rw [readValues_append hqs, he]
  rfl

/-- The fields without a label are the last ones. -/
theorem weightFields_eq_rtake (h : HasFieldCount shape fs) :
    weightFields shape.size fs = fs.rtake shape.size := by
  unfold weightFields List.rtake
  rcases h with h | h
  · rw [if_neg (by omega), h, Nat.sub_self, List.drop_zero]
  · rw [if_pos h, h, Nat.add_sub_cancel_left]

theorem length_rtake (h : HasFieldCount shape fs) :
    (fs.rtake shape.size).length = shape.size := by
  unfold List.rtake
  rw [List.length_drop]
  rcases h with h | h <;> omega

/-- There is a value for every weight. -/
theorem length_eq_size (h : HasFieldCount shape fs)
    (hqs : (fs.rtake shape.size).map readRational? = qs.map some) : qs.length = shape.size := by
  have hlength := congrArg List.length hqs
  rw [List.length_map, List.length_map, length_rtake h] at hlength
  exact hlength.symm

/-- **A line with the right count of fields** is read from its last fields. -/
theorem readLine_of_hasFieldCount {line : String} (h : HasFieldCount shape (lineFields line)) :
    readLine shape line = match readValues ((lineFields line).rtake shape.size) with
      | .error e => .error e
      | .ok values => ofValues shape values := by
  have hlast := weightFields_eq_rtake h
  have hlength := length_rtake h
  unfold lineFields at hlast hlength
  unfold readLine readLineChars
  dsimp only
  rw [hlast, if_pos hlength]
  rfl

/-- Values, one for every weight, are the weights of a profile. -/
theorem exists_profile (h : qs.length = shape.size) :
    ∃ p : Profile, p.shape = shape ∧ p.values = qs := by
  obtain ⟨weights, hweights⟩ := Option.isSome_iff_exists.mp
    ((StrategyTable.ofList?_isSome_iff shape qs).mpr h)
  exact ⟨⟨shape, weights⟩, rfl, StrategyTable.toList_of_ofList? hweights⟩

/-- A row with a defect stops the construction of a profile. -/
theorem ofValues_eq_error (hshape : p.shape ≠ []) (h0 : 0 ∉ p.shape)
    (h : rowsError? 0 p.rows = some e) : ofValues p.shape p.values = .error e := by
  rw [ofValues, if_neg (not_or.mpr ⟨hshape, h0⟩), values, StrategyTable.ofList?_toList]
  dsimp only
  rw [show rowsError? 0 p.weights.rows = some e from h]

/-! ## §4. Lines -/

/-- What a line describes is normalized. -/
theorem Describes.isNormalized (h : Describes shape fs p) : p.IsNormalized := by
  obtain ⟨-, rfl, -, hnonneg, htotal⟩ := h
  intro row hrow
  refine ⟨fun w hw => hnonneg w ?_, htotal row hrow⟩
  rw [values, ← StrategyTable.flatten_rows]
  exact List.mem_flatten.mpr ⟨row, hrow, hw⟩

/-- **A line that describes a profile** is read as that profile. -/
theorem readLine_of_describes {line : String} (hshape : shape ≠ [])
    (h : Describes shape (lineFields line) p) : readLine shape line = .ok p := by
  have hn := h.isNormalized
  obtain ⟨hcount, rfl, hnumbers, -, -⟩ := h
  rw [readLine_of_hasFieldCount hcount, readValues_eq_ok hnumbers]
  exact ofValues_values hshape hn

/-- **The first defect of a line** is what the reader says of it. -/
theorem readLine_of_lineDefect {line : String} (hshape : shape ≠ []) (h0 : 0 ∉ shape)
    (h : LineDefect shape (lineFields line) e) : readLine shape line = .error e := by
  cases h with
  | count h =>
    obtain ⟨hn, hn'⟩ := not_or.mp h
    unfold lineFields at hn hn' ⊢
    unfold readLine readLineChars weightFields
    dsimp only
    rw [if_neg hn', if_neg hn]
  | @field before after f h hfs hbefore hf =>
    have hstop : readValues (f :: after) = .error (.invalidValue (String.ofList f)) := by
      rw [readValues, hf]
    rw [readLine_of_hasFieldCount h, hfs, readValues_eq_error hbefore hstop]
  | @row qs before after row e h hqs hrows hbefore hrow =>
    obtain ⟨p, rfl, rfl⟩ := exists_profile (length_eq_size h hqs)
    have herror : rowsError? 0 p.rows = some e := by
      show rowsError? 0 (StrategyTable.cut p.shape p.values) = some e
      rw [hrows, rowsError?_append hbefore, Nat.zero_add, rowsError?,
        rowError?_of_rowDefect hrow]
    rw [readLine_of_hasFieldCount h, readValues_eq_ok hqs]
    exact ofValues_eq_error hshape h0 herror

/-- **A line without an answer** is a fault, whether its weights cannot be counted or one of
its fields has the least exponent. -/
theorem readLine_of_lineFault {line : String} (h : LineFault shape (lineFields line)) :
    Capacity.readLine shape line = .error .tooLarge := by
  unfold Capacity.readLine Capacity.lineAnswer
  cases h with
  | count h =>
    rw [Capacity.ifAtMost_eq_error _ h]
    rfl
  | @field before after f h hfs hbefore hslash hf =>
    have hstop : readValues (f :: after) = .error (.fault .tooLarge) := by
      rw [readValues, readRational_eq_error_iff.mpr ⟨rfl, hslash, hf⟩]
    rw [readLine_of_hasFieldCount h, hfs, readValues_eq_error hbefore hstop, Capacity.ifAtMost]
    split <;> rfl

/-- The defect of a line is no fault. -/
theorem raise_of_lineDefect (h : LineDefect shape fs e) :
    Capacity.raise (.error e : Except ProfileError Profile) = .ok (.error e) := by
  cases h with
  | count => rfl
  | field => rfl
  | row _ _ _ _ hrow => cases hrow <;> rfl

/-- **What is said of a line** if its weights can be counted. -/
theorem readLine_of_isCounted {line : String} (hcount : IsCounted shape) :
    Capacity.readLine shape line = Capacity.raise (readLine shape line) := by
  rw [Capacity.readLine, Capacity.lineAnswer, Capacity.ifAtMost_eq_ok _ hcount, ok_bind]

theorem capacity_readLine_of_describes {line : String} (hshape : shape ≠ [])
    (h : IsCounted shape ∧ Describes shape (lineFields line) p) :
    Capacity.readLine shape line = .ok (.ok p) := by
  rw [readLine_of_isCounted h.1, readLine_of_describes hshape h.2]
  rfl

theorem capacity_readLine_of_lineDefect {line : String} (hshape : shape ≠ []) (h0 : 0 ∉ shape)
    (h : IsCounted shape ∧ LineDefect shape (lineFields line) e) :
    Capacity.readLine shape line = .ok (.error e) := by
  rw [readLine_of_isCounted h.1, readLine_of_lineDefect hshape h0 h.2, raise_of_lineDefect h.2]

/-- **Every line** describes a profile, or has a defect, or has no answer. -/
theorem line_trichotomy (shape : Shape) (fs : List (List Char)) :
    (∃ p, IsCounted shape ∧ Describes shape fs p) ∨ (∃ e, IsCounted shape ∧ LineDefect shape fs e)
      ∨ LineFault shape fs := by
  by_cases hcount : IsCounted shape
  swap
  · exact Or.inr (Or.inr (.count hcount))
  by_cases h : HasFieldCount shape fs
  swap
  · exact Or.inr (Or.inl ⟨_, hcount, .count h⟩)
  rcases exists_first_or_forall (fun f => (readRational? f).isSome = true) (fs.rtake shape.size)
    with hall | ⟨before, f, after, hfs, hbefore, hf⟩
  swap
  · cases hread : readRational f with
    | error fault =>
      obtain ⟨-, hslash, hleast⟩ := readRational_eq_error_iff.mp hread
      exact Or.inr (Or.inr (.field h hfs hbefore hslash hleast))
    | ok answer =>
      cases answer with
      | none => exact Or.inr (Or.inl ⟨_, hcount, .field h hfs hbefore hread⟩)
      | some q => exact absurd (by rw [readRational?_eq_some_iff.mpr hread]; rfl) hf
  obtain ⟨qs, hqs⟩ := exists_values hall
  rcases exists_first_or_forall IsDistribution (StrategyTable.cut shape qs)
    with hrows | ⟨before, row, after, hrows, hbefore, hrow⟩
  swap
  · obtain ⟨e, he⟩ := (isDistribution_or_rowDefect before.length row).resolve_left hrow
    exact Or.inr (Or.inl ⟨e, hcount, .row h hqs hrows hbefore he⟩)
  obtain ⟨p, rfl, rfl⟩ := exists_profile (length_eq_size h hqs)
  refine Or.inl ⟨p, hcount, h, rfl, hqs, fun w hw => ?_, fun row hrow => (hrows row hrow).2⟩
  rw [values, ← StrategyTable.flatten_rows] at hw
  obtain ⟨row, hrow, hw⟩ := List.mem_flatten.mp hw
  exact (hrows row hrow).1 w hw

/-- **What is said of a line** is that it describes a profile, its first defect, or nothing. -/
theorem readLine_spec (hshape : shape ≠ []) (h0 : 0 ∉ shape) (line : String) :
    match Capacity.readLine shape line with
    | .ok (.ok p) => IsCounted shape ∧ Describes shape (lineFields line) p
    | .ok (.error e) => IsCounted shape ∧ LineDefect shape (lineFields line) e
    | .error f => f = .tooLarge ∧ LineFault shape (lineFields line) := by
  rcases line_trichotomy shape (lineFields line) with ⟨p, hp⟩ | ⟨e, he⟩ | hfault
  · rw [capacity_readLine_of_describes hshape hp]
    exact hp
  · rw [capacity_readLine_of_lineDefect hshape h0 he]
    exact he
  · rw [readLine_of_lineFault hfault]
    exact ⟨rfl, hfault⟩

/-! ## §5. Files -/

/-- **What is read from a file**: each line that is not blank, by itself. -/
theorem mem_readLines {text : String} {k : Nat} {r : Except ProfileError Profile} :
    (k, r) ∈ readLines shape text ↔ ∃ i l, k = i + 1 ∧ (lines text.toList)[i]? = some l
      ∧ isBlankText l = false ∧ r = readLine shape (String.ofList l) := by
  unfold readLines
  rw [List.mem_map]
  constructor
  · rintro ⟨⟨l, i⟩, hmem, hkr⟩
    obtain ⟨hl, hblank⟩ := List.mem_filter.mp hmem
    obtain ⟨rfl, rfl⟩ := Prod.mk.inj hkr
    refine ⟨i, l, rfl, List.mk_mem_zipIdx_iff_getElem?.mp hl, by simpa using hblank, ?_⟩
    rw [readLine, String.toList_ofList]
  · rintro ⟨i, l, rfl, hl, hblank, hr⟩
    refine ⟨(l, i), List.mem_filter.mpr ⟨List.mk_mem_zipIdx_iff_getElem?.mpr hl, ?_⟩, ?_⟩
    · simpa using hblank
    · rw [hr, readLine, String.toList_ofList]

/-- Lines are read in their order, each at most once. -/
theorem pairwise_readLines (shape : Shape) (text : String) :
    (readLines shape text).Pairwise fun a b => a.1 < b.1 := by
  have hindices : ((lines text.toList).zipIdx.map Prod.snd).Pairwise (· < ·) := by
    rw [List.zipIdx_map_snd]
    exact List.pairwise_lt_range' 1
  unfold readLines
  refine List.pairwise_map.mpr ((List.pairwise_map.mp hindices).filter _ |>.imp ?_)
  intro a b hab
  exact Nat.succ_lt_succ hab

end Profile

/-! ## §6. Up to the first fault -/

namespace Capacity

variable {α β : Type} {call : α → Except Fault β} {xs : List α}

/-- What calls came to, the fault last. -/
def results (reached : List β × Option Fault) : List (Except Fault β) :=
  reached.1.map .ok ++ reached.2.toList.map .error

@[simp] theorem ok_mem_results {reached : List β × Option Fault} {y : β} :
    .ok y ∈ results reached ↔ y ∈ reached.1 := by
  simp [results]

@[simp] theorem error_mem_results {reached : List β × Option Fault} {f : Fault} :
    .error f ∈ results reached ↔ reached.2 = some f := by
  simp [results]

/-- **Calls up to the first fault**, in a list that is sorted by a key: those before which there
is no fault. -/
theorem mem_results_upToFault {key : α → Nat} (hsorted : xs.Pairwise fun a b => key a < key b)
    {r : Except Fault β} : r ∈ results (upToFault call xs) ↔ ∃ x ∈ xs, call x = r
      ∧ ∀ z ∈ xs, key z < key x → ∃ y, call z = .ok y := by
  induction xs with
  | nil => simp [upToFault, results]
  | cons x xs ih =>
    obtain ⟨hfirst, hrest⟩ := List.pairwise_cons.mp hsorted
    -- nothing of the list stands before its first item
    have hnone : ∀ z ∈ x :: xs, key z < key x → ∃ y, call z = .ok y := by
      intro z hz hlt
      rcases List.mem_cons.mp hz with rfl | hz
      · exact absurd hlt (Nat.lt_irrefl _)
      · exact absurd (hfirst z hz) (Nat.lt_asymm hlt)
    rw [upToFault]
    cases hx : call x with
    | error f =>
      have hresults : results (([], some f) : List β × Option Fault) = [.error f] := rfl
      rw [hresults, List.mem_singleton]
      constructor
      · rintro rfl
        exact ⟨x, List.mem_cons_self, hx, hnone⟩
      · rintro ⟨x', hmem, rfl, hbefore⟩
        rcases List.mem_cons.mp hmem with rfl | hmem
        · exact hx
        · obtain ⟨y, hy⟩ := hbefore x List.mem_cons_self (hfirst x' hmem)
          cases hx.symm.trans hy
    | ok answer =>
      show r ∈ .ok answer :: results (upToFault call xs) ↔ _
      rw [List.mem_cons, ih hrest]
      constructor
      · rintro (rfl | ⟨x', hmem, hx', hbefore⟩)
        · exact ⟨x, List.mem_cons_self, hx, hnone⟩
        · refine ⟨x', List.mem_cons_of_mem x hmem, hx', fun z hz hlt => ?_⟩
          rcases List.mem_cons.mp hz with rfl | hz
          · exact ⟨answer, hx⟩
          · exact hbefore z hz hlt
      · rintro ⟨x', hmem, rfl, hbefore⟩
        rcases List.mem_cons.mp hmem with rfl | hmem
        · exact Or.inl hx
        · exact Or.inr ⟨x', hmem, rfl, fun z hz => hbefore z (List.mem_cons_of_mem x hz)⟩

/-- Answers are in the order of their calls. -/
theorem pairwise_upToFault {key : α → Nat} {key' : β → Nat}
    (hsorted : xs.Pairwise fun a b => key a < key b)
    (hkey : ∀ x y, call x = .ok y → key' y = key x) :
    (upToFault call xs).1.Pairwise fun a b => key' a < key' b := by
  induction xs with
  | nil => exact .nil
  | cons x xs ih =>
    obtain ⟨hfirst, hrest⟩ := List.pairwise_cons.mp hsorted
    rw [upToFault]
    cases hx : call x with
    | error f => exact .nil
    | ok answer =>
      refine List.pairwise_cons.mpr ⟨fun y hy => ?_, ih hrest⟩
      obtain ⟨x', hmem, hx', -⟩ := (mem_results_upToFault hrest).mp (ok_mem_results.mpr hy)
      rw [hkey x answer hx, hkey x' y hx']
      exact hfirst x' hmem

end Capacity

namespace Profile

variable {shape : Shape} {text : String} {i k : Nat}

/-- There is an answer for a line of a text, if the line is not blank. -/
def IsAnswered (shape : Shape) (text : String) (i : Nat) : Prop :=
  ∀ l, (lines text.toList)[i]? = some l → isBlankText l = false →
    ∃ r, Capacity.readLine shape (String.ofList l) = .ok r

theorem isAnswered_of_getElem? {l : List Char} (hl : (lines text.toList)[i]? = some l)
    (h : isBlankText l = true ∨ ∃ r, Capacity.readLine shape (String.ofList l) = .ok r) :
    IsAnswered shape text i := by
  intro l' hl' hblank
  cases hl.symm.trans hl'
  exact h.resolve_left (by simp [hblank])

theorem entryAnswer_readLine (shape : Shape) (i : Nat) (line : String) :
    Capacity.entryAnswer shape (i, readLine shape line)
      = (Capacity.readLine shape line).map (i, ·) := rfl

/-- **What a file comes to**: each line that is not blank, by itself, as long as there is an
answer for all lines before it. -/
theorem mem_results_readLines {r : Except Fault (Nat × Except ProfileError Profile)} :
    r ∈ Capacity.results (Capacity.readLines shape text) ↔ ∃ i l,
      (lines text.toList)[i]? = some l ∧ isBlankText l = false
      ∧ (Capacity.readLine shape (String.ofList l)).map (i + 1, ·) = r
      ∧ ∀ j < i, IsAnswered shape text j := by
  rw [Capacity.readLines, Capacity.mem_results_upToFault (pairwise_readLines shape text)]
  constructor
  · rintro ⟨⟨k, read⟩, hmem, hr, hbefore⟩
    obtain ⟨i, l, rfl, hl, hblank, hread⟩ := mem_readLines.mp hmem
    rw [hread, entryAnswer_readLine] at hr
    refine ⟨i, l, hl, hblank, hr, fun j hj m hm hm' => ?_⟩
    have hj : j + 1 < i + 1 := Nat.succ_lt_succ hj
    obtain ⟨y, hy⟩ := hbefore _ (mem_readLines.mpr ⟨j, m, rfl, hm, hm', rfl⟩) hj
    obtain ⟨r, hr, -⟩ := exists_of_map_eq_ok ((entryAnswer_readLine shape _ _).symm.trans hy)
    exact ⟨r, hr⟩
  · rintro ⟨i, l, hl, hblank, hr, hbefore⟩
    rw [← entryAnswer_readLine] at hr
    refine ⟨_, mem_readLines.mpr ⟨i, l, rfl, hl, hblank, rfl⟩, hr, ?_⟩
    rintro ⟨k, read⟩ hmem hlt
    obtain ⟨j, m, rfl, hm, hm', hread⟩ := mem_readLines.mp hmem
    have hlt : j + 1 < i + 1 := hlt
    obtain ⟨r, hr⟩ := hbefore j (Nat.lt_of_succ_lt_succ hlt) m hm hm'
    refine ⟨(j + 1, r), ?_⟩
    rw [hread, entryAnswer_readLine, hr]
    rfl

theorem mem_capacity_readLines {r : Except ProfileError Profile} :
    (k, r) ∈ (Capacity.readLines shape text).1 ↔ ∃ i l, k = i + 1
      ∧ (lines text.toList)[i]? = some l ∧ isBlankText l = false
      ∧ Capacity.readLine shape (String.ofList l) = .ok r ∧ ∀ j < i, IsAnswered shape text j := by
  rw [← Capacity.ok_mem_results, mem_results_readLines]
  refine exists_congr fun i => exists_congr fun l => ?_
  cases Capacity.readLine shape (String.ofList l) with
  | error f => simp [Except.map]
  | ok answer =>
    simp only [Except.map, Except.ok.injEq, Prod.mk.injEq]
    tauto

theorem capacity_readLines_eq_some_iff {f : Fault} :
    (Capacity.readLines shape text).2 = some f ↔ ∃ i l,
      (lines text.toList)[i]? = some l ∧ isBlankText l = false
      ∧ Capacity.readLine shape (String.ofList l) = .error f
      ∧ ∀ j < i, IsAnswered shape text j := by
  rw [← Capacity.error_mem_results, mem_results_readLines]
  refine exists_congr fun i => exists_congr fun l => ?_
  cases Capacity.readLine shape (String.ofList l) <;> simp [Except.map]

theorem pairwise_capacity_readLines (shape : Shape) (text : String) :
    (Capacity.readLines shape text).1.Pairwise fun a b => a.1 < b.1 := by
  refine Capacity.pairwise_upToFault (pairwise_readLines shape text) fun entry y hy => ?_
  obtain ⟨answer, -, rfl⟩ := exists_of_map_eq_ok hy
  rfl

/-- **Texts that differ in one line** have the same items in front of it, and after it too if
there is an answer for this line in both. -/
theorem mem_readLines_of_eq {other : String} {r : Except ProfileError Profile}
    (hlines : ∀ j ≠ i, (lines other.toList)[j]? = (lines text.toList)[j]?)
    (hk : k ≤ i ∨ (i + 1 < k ∧ IsAnswered shape text i))
    (h : (k, r) ∈ (Capacity.readLines shape other).1) :
    (k, r) ∈ (Capacity.readLines shape text).1 := by
  obtain ⟨j, l, rfl, hl, hblank, hr, hbefore⟩ := mem_capacity_readLines.mp h
  have hj : j ≠ i := by omega
  refine mem_capacity_readLines.mpr ⟨j, l, rfl, hlines j hj ▸ hl, hblank, hr, fun m hm => ?_⟩
  by_cases hmi : m = i
  · subst hmi
    exact (hk.resolve_left (by omega)).2
  · intro l' hl'
    exact hbefore m hm l' (hlines m hmi ▸ hl')

/-- **Lines with their defects.**  For a shape of positive counts, a line is read as the
profile that it describes; if it describes none, its first defect is the error.  There is no
answer if the weights cannot be counted or if, before any other defect of the fields, one of
them has the least exponent.  In a file there is an item for each line that is not blank, in
order and with the number of the line, and it is what is read from that line alone; at the
first line without an answer, reading stops.  So another text in one line changes no item of
the others, unless reading stops there. -/
theorem readLine_verdicts (hshape : shape ≠ []) (h0 : 0 ∉ shape) :
    (∀ line p, Capacity.readLine shape line = .ok (.ok p)
        ↔ IsCounted shape ∧ Describes shape (lineFields line) p)
      ∧ (∀ line e, Capacity.readLine shape line = .ok (.error e)
        ↔ IsCounted shape ∧ LineDefect shape (lineFields line) e)
      ∧ (∀ line f, Capacity.readLine shape line = .error f
        ↔ f = .tooLarge ∧ LineFault shape (lineFields line))
      ∧ (∀ text, (Capacity.readLines shape text).1.Pairwise (fun a b => a.1 < b.1)
        ∧ (∀ k r, (k, r) ∈ (Capacity.readLines shape text).1 ↔ ∃ i l, k = i + 1
          ∧ (lines text.toList)[i]? = some l ∧ isBlankText l = false
          ∧ Capacity.readLine shape (String.ofList l) = .ok r ∧ ∀ j < i, IsAnswered shape text j)
        ∧ ∀ f, (Capacity.readLines shape text).2 = some f ↔ ∃ i l,
          (lines text.toList)[i]? = some l ∧ isBlankText l = false
          ∧ Capacity.readLine shape (String.ofList l) = .error f
          ∧ ∀ j < i, IsAnswered shape text j)
      ∧ ∀ (texts : List String) (i : Nat) (other : String),
        (∀ text ∈ texts, '\n' ∉ text.toList) → '\n' ∉ other.toList →
          ∀ k r, (k ≤ i ∨ (i + 1 < k ∧ IsAnswered shape ("\n".intercalate texts) i
              ∧ IsAnswered shape ("\n".intercalate (texts.set i other)) i)) →
            ((k, r) ∈ (Capacity.readLines shape ("\n".intercalate (texts.set i other))).1
              ↔ (k, r) ∈ (Capacity.readLines shape ("\n".intercalate texts)).1) := by
  have hspec := readLine_spec hshape h0
  refine ⟨fun line p => ⟨fun h => ?_, capacity_readLine_of_describes hshape⟩,
    fun line e => ⟨fun h => ?_, capacity_readLine_of_lineDefect hshape h0⟩,
    fun line f => ⟨fun h => ?_, fun h => h.1 ▸ readLine_of_lineFault h.2⟩,
    fun text => ⟨pairwise_capacity_readLines shape text, fun k r => mem_capacity_readLines,
      fun f => capacity_readLines_eq_some_iff⟩, ?_⟩
  · specialize hspec line
    rwa [h] at hspec
  · specialize hspec line
    rwa [h] at hspec
  · specialize hspec line
    rwa [h] at hspec
  · intro texts i other htexts hother k r hk
    have hchars : ∀ text ∈ texts.map String.toList, '\n' ∉ text := List.forall_mem_map.mpr htexts
    have hlines : ∀ j ≠ i, (lines ("\n".intercalate (texts.set i other)).toList)[j]?
        = (lines ("\n".intercalate texts).toList)[j]? := by
      intro j hj
      rw [String.toList_intercalate, String.toList_intercalate, List.map_set]
      exact getElem?_lines_set hchars hother hj
    exact ⟨mem_readLines_of_eq hlines (hk.imp_right fun h => ⟨h.1, h.2.1⟩),
      mem_readLines_of_eq (fun j hj => (hlines j hj).symm) (hk.imp_right fun h => ⟨h.1, h.2.2⟩)⟩

/-- Two strategies equally often, against the first of two. -/
def evenAgainstFirst : Profile := ⟨[2, 2], ⟨#v[1 / 2, 1 / 2, 1, 0]⟩⟩

/-- A one with the least exponent. -/
theorem hasLeastExponent_one : HasLeastExponent "1e-9223372036854775808".toList := by
  have hexponent : IsExponent ('e' :: ['-'] ++ "9223372036854775808".toList)
      (-1 * digitsValue "9223372036854775808".toList) :=
    .mark (Or.inl rfl) .minus (by decide) (by decide)
  have hvalue : (-1 * digitsValue "9223372036854775808".toList : Int) = -2 ^ 63 := by decide
  exact ⟨['1'], _, by decide, hvalue ▸ hexponent, List.forall_mem_singleton.mpr (by decide)⟩

theorem readLine_verdicts_evenAgainstFirst :
    Capacity.readLine [2, 2] " NE, 1/2 ,0.5,1,0 " = .ok (.ok evenAgainstFirst)
      ∧ Capacity.readLine [2, 2] "1,0,1" = .ok (.error (.wrongLength 4 3))
      ∧ Capacity.readLine [2, 2] "-,2,-1,y,z" = .ok (.error (.invalidValue "y"))
      ∧ Capacity.readLine [2, 2] "1,1,2,-1" = .ok (.error (.notNormalized 0 2))
      ∧ Capacity.readLine [2, 2] "1,0,2,-1" = .ok (.error (.negativeWeight 1 1))
      ∧ Capacity.readLine [2, 2] "1,0,1e-9223372036854775808,z" = .error .tooLarge
      ∧ (3, .ok evenAgainstFirst) ∈ (Capacity.readLines [2, 2] "1,0,1\n \r\nNE, 1/2 ,0.5,1,0").1
      ∧ (Capacity.readLines [2, 2] "1,0,1\n1,0,1e-9223372036854775808,z\n1,0,1,0").2
        = some .tooLarge
      ∧ ∀ r, (3, r) ∉ (Capacity.readLines [2, 2]
        "1,0,1\n1,0,1e-9223372036854775808,z\n1,0,1,0").1 := by
  obtain ⟨hok, herror, hfault, hfile, hother⟩ :=
    readLine_verdicts (List.cons_ne_nil 2 [2]) (by decide : 0 ∉ ([2, 2] : Shape))
  have hcount : IsCounted [2, 2] := by decide
  have hshort := (herror "1,0,1" (.wrongLength 4 3)).mpr
    ⟨hcount, .count (by decide +kernel : ¬ HasFieldCount [2, 2] (lineFields "1,0,1"))⟩
  have hstop : Capacity.readLine [2, 2] "1,0,1e-9223372036854775808,z" = .error .tooLarge := by
    refine (hfault _ _).mpr ⟨rfl, @LineFault.field _ _ [['1'], ['0']] [['z']]
      "1e-9223372036854775808".toList (by decide +kernel) (by decide +kernel) (by decide +kernel)
      (by decide +kernel) ?_⟩
    have htrim : trim "1e-9223372036854775808".toList = "1e-9223372036854775808".toList := by
      decide +kernel
    rw [htrim]
    exact hasLeastExponent_one
  have hsecond : (lines "1,0,1\n1,0,1e-9223372036854775808,z\n1,0,1,0".toList)[1]?
      = some "1,0,1e-9223372036854775808,z".toList := by decide +kernel
  refine ⟨(hok _ _).mpr ⟨hcount, ?_⟩, hshort, (herror _ _).mpr ⟨hcount, ?_⟩,
    (herror _ _).mpr ⟨hcount, ?_⟩, (herror _ _).mpr ⟨hcount, ?_⟩, hstop, ?_, ?_, ?_⟩
  · exact ⟨by decide +kernel, rfl, by decide +kernel, by decide +kernel, by decide +kernel⟩
  · exact @LineDefect.field _ _ ["2".toList, "-1".toList] [['z']] ['y'] (by decide +kernel)
      (by decide +kernel) (by decide +kernel) (by decide +kernel)
  · have hrow : RowDefect 0 [1, 1] (.notNormalized 0 (total [1, 1])) :=
      .total (by decide +kernel) (by decide +kernel)
    have htotal : total [1, 1] = 2 := by decide +kernel
    rw [htotal] at hrow
    exact @LineDefect.row _ _ [1, 1, 2, -1] [] [[2, -1]] _ _ (by decide +kernel)
      (by decide +kernel) rfl (by decide) hrow
  · have hrow : RowDefect 1 [2, -1] (.negativeWeight 1 1) :=
      @RowDefect.negative 1 [2] [] (-1) (by decide +kernel) (by decide +kernel)
    exact @LineDefect.row _ _ [1, 0, 2, -1] [[1, 0]] [] _ _ (by decide +kernel)
      (by decide +kernel) rfl (by decide +kernel) hrow
  · -- what is read from the third line is the same with another first line
    have hread := (hok "NE, 1/2 ,0.5,1,0" evenAgainstFirst).mpr
      ⟨hcount, by decide +kernel, rfl, by decide +kernel, by decide +kernel, by decide +kernel⟩
    have hblank : lines ("\n".intercalate ["", " \r", "NE, 1/2 ,0.5,1,0"]).toList
        = [[], [' '], "NE, 1/2 ,0.5,1,0".toList] := by decide +kernel
    have htext : "\n".intercalate (["", " \r", "NE, 1/2 ,0.5,1,0"].set 0 "1,0,1")
        = "1,0,1\n \r\nNE, 1/2 ,0.5,1,0" := by decide +kernel
    have hanswered : ∀ i < 2,
        IsAnswered [2, 2] ("\n".intercalate ["", " \r", "NE, 1/2 ,0.5,1,0"]) i
      | 0, _ => isAnswered_of_getElem? (l := []) (by rw [hblank]; rfl) (Or.inl rfl)
      | 1, _ => isAnswered_of_getElem? (l := [' ']) (by rw [hblank]; rfl) (Or.inl (by decide))
    have hfirst : IsAnswered [2, 2] "1,0,1\n \r\nNE, 1/2 ,0.5,1,0" 0 :=
      isAnswered_of_getElem? (l := "1,0,1".toList) (by decide +kernel)
        (Or.inr ⟨_, by rw [String.ofList_toList, hshort]⟩)
    have hset := hother ["", " \r", "NE, 1/2 ,0.5,1,0"] 0 "1,0,1" (by decide) (by decide) 3
      (.ok evenAgainstFirst) (Or.inr ⟨by decide, hanswered 0 (by decide), htext.symm ▸ hfirst⟩)
    rw [htext] at hset
    exact hset.mpr (((hfile _).2.1 _ _).mpr ⟨2, "NE, 1/2 ,0.5,1,0".toList, rfl,
      by rw [hblank]; rfl, by decide +kernel, by rw [String.ofList_toList, hread], hanswered⟩)
  · have hfirst : IsAnswered [2, 2] "1,0,1\n1,0,1e-9223372036854775808,z\n1,0,1,0" 0 :=
      isAnswered_of_getElem? (l := "1,0,1".toList) (by decide +kernel)
        (Or.inr ⟨_, by rw [String.ofList_toList, hshort]⟩)
    refine ((hfile _).2.2 _).mpr ⟨1, "1,0,1e-9223372036854775808,z".toList, hsecond,
      by decide +kernel, by rw [String.ofList_toList, hstop], fun j hj => ?_⟩
    exact Nat.lt_one_iff.mp hj ▸ hfirst
  · intro r hr
    obtain ⟨i, l, hi, -, -, -, hbefore⟩ := ((hfile _).2.1 _ _).mp hr
    -- there is no answer for the second line
    obtain ⟨answer, hanswer⟩ := hbefore 1 (by omega) _ hsecond (by decide +kernel)
    rw [String.ofList_toList, hstop] at hanswer
    cases hanswer

end Profile

end SimplicialNash
