/-
  SimplicialNash.Proofs.Walk.Move
  ───────────────────────────────
  **Every move of the program is a step through doors, or half of one.**

  `Stands G f seen x mv a` says that a simplex with its next move stands at the
  door `a`: all vertices of the cell but the one to be entered have been
  labelled by `f`, and the program keeps their labels in order.  Where the
  program needs two moves for a step, the first of them leads to a state midway
  (`Move.isMidway`), still at the same door.

      receive                 — the label of the vertex that is entered
      extend                  — the second half of a step that grows
      replaceBase, Inner, Tip — out of a cell
      drop, release           — their second halves at the boundary

  Each lemma shows that the call answers, and that what it answers stands where
  it should (`Arrives`); `Stands.step` puts together those that evaluate
  nothing, and `IsPending.receive` is the one that takes a label.
  `seen` is any property of the vertices that have been labelled; it goes along.
-/
import Mathlib.Data.List.InsertIdx
import SimplicialNash.Proofs.Walk.Raster

namespace SimplicialNash

open Label

variable {shape : Shape}

/-! ## §1. Simplices with labels -/

section

variable {G : Raster shape} {f : Heights shape → Label shape} {seen : Heights shape → Prop}
  {x x' : Simplex shape} {a : Door shape} {c : Cell shape} {b entry k l w : Label shape}
  {e i m : Nat} {A B rest : List (Label shape)}

namespace Simplex

/-- All vertices are labelled. -/
structure IsLabelled (G : Raster shape) (f : Heights shape → Label shape)
    (seen : Heights shape → Prop) (x : Simplex shape) : Prop where
  isOn : x.IsOn G
  labels : x.labels = (x.cell.vertices G.room).map fun y => some (f y)
  seen : ∀ y ∈ x.cell.vertices G.room, seen y

/-- All vertices but the one that is looked at are labelled. -/
structure IsPending (G : Raster shape) (f : Heights shape → Label shape)
    (seen : Heights shape → Prop) (x : Simplex shape) : Prop where
  isOn : x.IsOn G
  current : x.current = G.point (x.cell.vertex G.room x.slot)
  labels : x.labels
    = ((x.cell.facet G.room x.slot).map fun y => some (f y)).insertIdx x.slot none
  seen : ∀ y ∈ x.cell.facet G.room x.slot, seen y

end Simplex

/-- No strategy is both triangulated and saturated. -/
def Simplex.HasFlagsApart (x : Simplex shape) : Prop :=
  ∀ l, ¬ (x.triangulated.get l = true ∧ x.saturated.get l = true)

namespace Simplex

/-- What is on the path is not saturated. -/
theorem IsOn.hasFlagsApart (h : x.IsOn G) : x.HasFlagsApart := by
  rintro l ⟨ht, hs⟩
  rw [h.triangulated, decide_eq_true_eq] at ht
  exact Bool.false_ne_true ((h.valid.path_open l ht).symm.trans hs)

/-- A free strategy can be saturated. -/
theorem HasFlagsApart.saturate {y : Point shape} (h : x.HasFlagsApart) (hb : x.isFixed b = false) :
    ({ x with current := y, saturated := x.saturated.set b true } : Simplex shape).HasFlagsApart := by
  rintro l ⟨ht, hs⟩
  obtain ⟨hbt, -⟩ := Bool.or_eq_false_iff.mp hb
  by_cases hbl : b = l
  · subst hbl
    exact Bool.false_ne_true (hbt.symm.trans ht)
  · exact h l ⟨ht, (x.saturated.get_set_ne true hbl).symm.trans hs⟩

/-- What is free after a strategy has been saturated was free before. -/
theorem isFixed_of_saturate {y : Point shape}
    (h : ({ x with current := y, saturated := x.saturated.set b true } : Simplex shape).isFixed l
      = false) : x.isFixed l = false := by
  obtain ⟨ht, hs⟩ := Bool.or_eq_false_iff.mp h
  have hs' : (x.saturated.set b true).get l = false := hs
  rw [StrategyTable.get_set_eq] at hs'
  split at hs'
  · cases hs'
  · exact Bool.or_eq_false_iff.mpr ⟨ht, hs'⟩

end Simplex

/-- The labels of a cell show that the walk is finished: for some player and some
vertex, every strategy is used up at the vertex or is a label of the cell. -/
def Cell.IsFinal (room : Label shape → Nat) (f : Heights shape → Label shape) (c : Cell shape) :
    Prop :=
  ∃ m ≤ c.path.length, ∃ l : Label shape, ∀ k : Label shape, k.player = l.player →
    c.vertex room m k = 0 ∨ ∃ y ∈ c.vertices room, f y = k

/-- A move after which the walk is still at the same door. -/
def Move.isMidway : Move shape → Bool
  | .evaluate | .replace _ => false
  | .extend .. | .drop _ | .release _ | .finish => true

/-- A simplex and the next move stand at a door. -/
inductive Stands (G : Raster shape) (f : Heights shape → Label shape)
    (seen : Heights shape → Prop) : Simplex shape → Move shape → Door shape → Prop
  | evaluate {x : Simplex shape} (h : x.IsPending G f seen)
      (hd : Door.IsValid G.room f ⟨true, x.cell, x.slot⟩) :
      Stands G f seen x .evaluate ⟨true, x.cell, x.slot⟩
  | extend {x : Simplex shape} {c : Cell shape} {i e : Nat} {l : Label shape}
      (h : x.IsLabelled G f seen) (hd : Door.IsValid G.room f ⟨true, x.cell, i⟩)
      (hl : f (x.cell.vertex G.room i) = l) (hg : x.cell.Grows l e c) (hc : c.IsValid G.room) :
      Stands G f seen x (.extend e l) ⟨true, x.cell, i⟩
  | replace {x : Simplex shape} {m : Nat} (h : x.IsLabelled G f seen)
      (hd : Door.IsValid G.room f ⟨false, x.cell, m⟩) :
      Stands G f seen x (.replace m) ⟨false, x.cell, m⟩
  | drop {x : Simplex shape} {c : Cell shape} {e : Nat} {l : Label shape}
      (h : x.IsLabelled G f seen) (hd : Door.IsValid G.room f ⟨false, x.cell, e + 1⟩)
      (hg : c.Grows l e x.cell) (hc : c.IsValid G.room) :
      Stands G f seen x (.drop (e + 1)) ⟨false, x.cell, e + 1⟩
  | release {x : Simplex shape} {w entry : Label shape} {A : List (Label shape)}
      (h : x.IsLabelled G f seen)
      (hd : Door.IsValid G.room f ⟨false, x.cell, A.length + 1⟩) (hp : x.path = A ++ [entry])
      (hcur : x.current = G.point (x.cell.base G.room)) (hwc : x.saturated.get w = true)
      (hwr : Run x.saturated.get w entry) (hw0 : x.steps.get w = 0)
      (hw1 : 0 < x.steps.get w.next) (hb : 0 < x.cell.base G.room entry) :
      Stands G f seen x (.release w) ⟨false, x.cell, A.length + 1⟩
  | finish {x : Simplex shape} {a : Door shape} {c : Cell shape} (hc : c.IsValid G.room)
      (hseen : ∀ y ∈ c.vertices G.room, seen y) (hf : c.IsFinal G.room f)
      (hp : x.path = c.path) (hl : x.labels.length = x.path.length + 1)
      (hflags : x.HasFlagsApart) (hsteps : x.steps.get = c.steps)
      (hfree : ∀ l, x.isFixed l = false → c.IsFree l) : Stands G f seen x .finish a

/-- As long as the walk goes on, the simplex is on the grid. -/
theorem Stands.isOn {mv : Move shape} (h : Stands G f seen x mv a) (hm : mv ≠ .finish) :
    x.IsOn G := by
  cases h with
  | evaluate h => exact h.isOn
  | extend h => exact h.isOn
  | replace h => exact h.isOn
  | drop h => exact h.isOn
  | release h => exact h.isOn
  | finish => exact absurd rfl hm

/-- No strategy is ever triangulated and saturated. -/
theorem Stands.hasFlagsApart {mv : Move shape} (h : Stands G f seen x mv a) :
    x.HasFlagsApart := by
  by_cases hm : mv = .finish
  · subst hm
    cases h with
    | finish _ _ _ _ _ hflags => exact hflags
  · exact (h.isOn hm).hasFlagsApart

/-- The ledger is always that of a valid cell, where all is free that is free in the simplex. -/
theorem Stands.exists_cell {mv : Move shape} (h : Stands G f seen x mv a) :
    ∃ c : Cell shape, c.IsValid G.room ∧ x.steps.get = c.steps
      ∧ ∀ l, x.isFixed l = false → c.IsFree l := by
  by_cases hm : mv = .finish
  · subst hm
    cases h with
    | finish hc _ _ _ _ _ hsteps hfree => exact ⟨_, hc, hsteps, hfree⟩
  · have hx := h.isOn hm
    exact ⟨x.cell, hx.valid, rfl, fun _ => hx.isFixed_eq_false_iff.mp⟩

/-- A call answers, and its answer stands midway at the same door or at the next
one. -/
def Arrives (G : Raster shape) (f : Heights shape → Label shape) (seen : Heights shape → Prop)
    (midway : Bool) (a : Door shape) (r : Except Fault (Simplex shape × Move shape)) : Prop :=
  ∃ x mv, r = .ok (x, mv)
    ∧ ((midway = false ∧ mv.isMidway = true ∧ Stands G f seen x mv a)
      ∨ (mv.isMidway = false ∧ ∃ b, Door.Next G.room f a b ∧ Stands G f seen x mv b))

/-- A table with one flag changed, as a function. -/
theorem get_set_eq_update {α : Type} (t : StrategyTable shape α) (l : Label shape) (v : α) :
    (t.set l v).get = Function.update t.get l v := by
  funext k
  rw [StrategyTable.get_set_eq, Function.update_apply]
  exact if_congr eq_comm rfl rfl

/-- What a simplex must keep to stand before a cell. -/
theorem stands_of_cell (hcell : x.cell = c) (hd : Door.IsValid G.room f ⟨true, c, x.slot⟩)
    (hg : x.mesh = G.mesh ∧ x.leash = G.mesh * G.leash ∧ x.reference = G.reference)
    (ht : ∀ l, x.triangulated.get l = decide (l ∈ x.path))
    (hcur : x.current = G.point (c.vertex G.room x.slot))
    (hlab : x.labels = ((c.facet G.room x.slot).map fun y => some (f y)).insertIdx x.slot none)
    (hseen : ∀ y ∈ c.facet G.room x.slot, seen y) :
    Stands G f seen x .evaluate ⟨true, c, x.slot⟩ := by
  subst hcell
  exact .evaluate ⟨⟨hg.1, hg.2.1, hg.2.2, ht, hd.cell⟩, hcur, hlab, hseen⟩ hd

/-- What a simplex must keep to stand inside a cell. -/
theorem stands_of_labelled (hcell : x.cell = c) (hd : Door.IsValid G.room f ⟨false, c, m⟩)
    (hg : x.mesh = G.mesh ∧ x.leash = G.mesh * G.leash ∧ x.reference = G.reference)
    (ht : ∀ l, x.triangulated.get l = decide (l ∈ x.path))
    (hlab : x.labels = (c.vertices G.room).map fun y => some (f y))
    (hseen : ∀ y ∈ c.vertices G.room, seen y) :
    Stands G f seen x (.replace m) ⟨false, c, m⟩ := by
  subst hcell
  exact .replace ⟨⟨hg.1, hg.2.1, hg.2.2, ht, hd.cell⟩, hlab, hseen⟩ hd

/-- A search for a number finds what stands there. -/
theorem exists_idxOf?_of_getElem? {α : Type} [BEq α] [LawfulBEq α]
    {ls : List α} {y : α}
    (h : ls[i]? = some y) : ∃ j, ls.idxOf? y = some j ∧ ls[j]? = some y := by
  have hs := List.isSome_idxOf?.mpr (List.mem_of_getElem? h)
  obtain ⟨j, hj⟩ := Option.isSome_iff_exists.mp hs
  obtain ⟨hlt, e, -⟩ := List.idxOf?_eq_some_iff.mp hj
  exact ⟨j, hj, List.getElem?_eq_some_iff.mpr ⟨hlt, e⟩⟩

/-! ## §2. Into a cell -/

/-- The entry at which the program lets a label in. -/
theorem Cell.exists_grows {h : Label shape} (hn : l ∉ c.path) (hr : Run c.closed l h)
    (hf : c.closed h = false) : ∃ c', c.Grows l (c.path.idxOf h) c' := by
  have hlen : (c.path.take (c.path.idxOf h)).length = c.path.idxOf h :=
    List.length_take_of_le List.idxOf_le_length
  have hg := Grows.intro (c := c) (List.take_append_drop (c.path.idxOf h) c.path).symm hn hr hf (by
    by_cases hm : h ∈ c.path
    · left
      rw [List.head?_drop, List.getElem?_idxOf hm]
    · right
      rw [List.idxOf_eq_length hm]
      exact ⟨List.drop_length, by rwa [List.take_length]⟩)
  rw [hlen] at hg
  exact ⟨_, hg⟩

namespace Simplex

/-- Which label is kept at which place. -/
theorem getElem?_known :
    ((c.vertices G.room).map fun y => some (f y))[m]? = some (some l)
      ↔ m ≤ c.path.length ∧ f (c.vertex G.room m) = l := by
  constructor
  · intro hm
    rw [List.getElem?_map, Option.map_eq_some_iff] at hm
    obtain ⟨y, hy, e⟩ := hm
    have hlt := (List.getElem?_eq_some_iff.mp hy).1
    rw [Cell.length_vertices] at hlt
    rw [Cell.getElem?_vertices (by omega), Option.some.injEq] at hy
    exact ⟨by omega, by rw [hy]; exact Option.some.inj e⟩
  · rintro ⟨hm, e⟩
    rw [List.getElem?_map, Cell.getElem?_vertices hm, Option.map_some, e]

/-- The number of a vertex with a label. -/
theorem exists_idxOf?_known (hi : i ≤ c.path.length) (hl : f (c.vertex G.room i) = l) :
    ∃ m ≤ c.path.length, ((c.vertices G.room).map fun y => some (f y)).idxOf? (some l) = some m
      ∧ f (c.vertex G.room m) = l := by
  obtain ⟨m, hm, hml⟩ := exists_idxOf?_of_getElem? (getElem?_known.mpr ⟨hi, hl⟩)
  obtain ⟨hle, hfl⟩ := getElem?_known.mp hml
  exact ⟨m, hle, hm, hfl⟩

theorem IsLabelled.length_labels (h : x.IsLabelled G f seen) :
    x.labels.length = x.path.length + 1 := by
  rw [h.labels, List.length_map, Cell.length_vertices, cell_path]

/-- The vertices of a facet that another cell shares are labelled. -/
theorem IsLabelled.seen_of_facet_eq (h : x.IsLabelled G f seen)
    (hf : c.facet G.room i = x.cell.facet G.room m) : ∀ y ∈ c.facet G.room i, seen y :=
  fun y hy => h.seen y (Cell.mem_vertices_of_mem_facet (hf ▸ hy))

theorem IsPending.labels_eq (h : x.IsPending G f seen) (hi : x.slot ≤ x.path.length) :
    x.labels = ((x.cell.vertices G.room).map fun y => some (f y)).set x.slot none := by
  have hlt : x.slot ≠ ((x.cell.vertices G.room).map fun y => some (f y)).length := by
    rw [List.length_map, Cell.length_vertices, cell_path]; omega
  rw [h.labels, Cell.facet, ← List.eraseIdx_map, List.insertIdx_eraseIdx_self hlt]

theorem IsPending.length_labels (h : x.IsPending G f seen) (hi : x.slot ≤ x.path.length) :
    x.labels.length = x.path.length + 1 := by
  rw [h.labels_eq hi, List.length_set, List.length_map, Cell.length_vertices, cell_path]

/-- All vertices are labelled when the one that is looked at is. -/
theorem IsPending.labelled (h : x.IsPending G f seen) (hi : x.slot ≤ x.path.length)
    (hs : seen (x.cell.vertex G.room x.slot)) (hl : f (x.cell.vertex G.room x.slot) = l) :
    ({ x with labels := x.labels.set x.slot (some l) } : Simplex shape).IsLabelled G f seen := by
  refine ⟨⟨h.isOn.mesh, h.isOn.leash, h.isOn.reference, h.isOn.triangulated, h.isOn.valid⟩, ?_, ?_⟩
  · show x.labels.set x.slot (some l) = (x.cell.vertices G.room).map fun y => some (f y)
    have hat : ((x.cell.vertices G.room).map fun y => some (f y))[x.slot]? = some (some l) := by
      rw [List.getElem?_map, Cell.getElem?_vertices (c := x.cell) hi, Option.map_some, hl]
    obtain ⟨hlt, e⟩ := List.getElem?_eq_some_iff.mp hat
    rw [h.labels_eq hi, List.set_set, ← e, List.set_getElem_self]
  · intro y hy
    rcases Cell.eq_vertex_or_mem_facet (c := x.cell) hi hy with rfl | hy
    · exact hs
    · exact h.seen y hy

/-- The number of another vertex with the label that is received. -/
theorem IsPending.exists_idxOf? (h : x.IsPending G f seen) (hs : x.slot ≤ x.path.length)
    (hi : i ≤ x.path.length) (hne : i ≠ x.slot) (hl : f (x.cell.vertex G.room i) = l) :
    ∃ m ≤ x.path.length, m ≠ x.slot ∧ x.labels.idxOf? (some l) = some m
      ∧ f (x.cell.vertex G.room m) = l := by
  have hat := (getElem?_known (c := x.cell) (G := G) (f := f)).mpr ⟨hi, hl⟩
  rw [← List.getElem?_set_ne (Ne.symm hne) (a := none), ← h.labels_eq hs] at hat
  obtain ⟨m, hm, hml⟩ := exists_idxOf?_of_getElem? hat
  have hms : m ≠ x.slot := by
    rintro rfl
    have hlt := (List.getElem?_eq_some_iff.mp hml).1
    rw [h.labels_eq hs, List.length_set] at hlt
    rw [h.labels_eq hs, List.getElem?_set_self hlt] at hml
    cases hml
  rw [h.labels_eq hs, List.getElem?_set_ne (Ne.symm hms)] at hml
  obtain ⟨hle, hfl⟩ := getElem?_known.mp hml
  exact ⟨m, hle, hms, hm, hfl⟩

/-- One free strategy is left to a player.  If it is a label as well, or used up at a
vertex, the walk is finished. -/
theorem IsOn.isFinal_of_hasOneFree (hx : x.IsOn G) (hc : x.cell.IsComplete G.room f i)
    (hone : x.hasOneFree l.player = true) (hfree : x.isFixed l = false)
    (hm : m ≤ x.path.length)
    (hl : x.cell.vertex G.room m l = 0 ∨ ∃ y ∈ x.cell.vertices G.room, f y = l) :
    x.cell.IsFinal G.room f := by
  refine ⟨m, hm, l, fun k hk => ?_⟩
  cases hkfix : x.isFixed k with
  | false =>
    obtain rfl := eq_of_hasOneFree hone hkfix hfree hk rfl
    exact hl
  | true =>
    -- a strategy that is not free is on the path or saturated
    by_cases hkp : k ∈ x.path
    · obtain ⟨j, -, -, hjk⟩ := hc.exists_of_mem hkp
      exact Or.inr ⟨_, Cell.vertex_mem_vertices _, hjk⟩
    · rw [Simplex.isFixed, hx.triangulated, decide_eq_false hkp, Bool.false_or] at hkfix
      exact Or.inl (hx.valid.vertex_closed hkfix _)

/-- A label that is not on the path has a place there. -/
theorem IsOn.exists_entryFor (hx : x.IsOn G) (hn : l ∉ x.path) :
    ∃ e c, x.entryFor l = .ok e ∧ x.cell.Grows l e c := by
  obtain ⟨h, hr, hh⟩ := hx.valid.exists_run l
  obtain ⟨c, hgrow⟩ := Cell.exists_grows (c := x.cell) hn hr hh
  refine ⟨_, c, ?_, hgrow⟩
  rw [entryFor_eq hr hh, hx.triangulated]
  split
  · rfl
  · next hp => rw [cell_path, List.idxOf_eq_length (by simpa using hp)]

/-- **A label is received.**  Into a cell, the walk goes on to the other vertex with
the label, or into a larger cell, or it is finished. -/
theorem IsPending.receive (h : x.IsPending G f seen)
    (hd : Door.IsValid G.room f ⟨true, x.cell, x.slot⟩)
    (hs : seen (x.cell.vertex G.room x.slot)) (hl : f (x.cell.vertex G.room x.slot) = l) :
    Arrives G f seen false ⟨true, x.cell, x.slot⟩ (x.receive l) := by
  have hi : x.slot ≤ x.path.length := hd.vertex_le
  have hx := h.isOn
  have hv := hx.valid
  have hlab := h.labelled hi hs hl
  unfold Arrives Simplex.receive
  cases hfix : x.isFixed l with
  | true =>
    rw [if_pos rfl]
    cases htri : x.triangulated.get l with
    | true =>
      have hmem : l ∈ x.path := by
        rw [hx.triangulated] at htri
        exact of_decide_eq_true htri
      obtain ⟨i, hile, hine, hil⟩ := hd.complete.exists_of_mem hmem
      obtain ⟨m, hm, hms, hidx, hml⟩ := h.exists_idxOf? hi hile hine hil
      have hd' : Door.IsValid G.room f ⟨false, x.cell, m⟩ :=
        ⟨hv, hm, hd.complete.compare hi hm (hl.trans hml.symm)⟩
      rw [if_pos rfl, hidx]
      exact ⟨_, _, rfl, Or.inr ⟨rfl, _, ⟨hd, hd', .compare hms.symm (hl.trans hml.symm)⟩,
        .replace hlab hd'⟩⟩
    | false =>
      have hnp : l ∉ x.path := by
        rw [hx.triangulated] at htri
        exact of_decide_eq_false htri
      have hcl : x.saturated.get l = true := by
        rw [Simplex.isFixed, htri, Bool.false_or] at hfix
        exact hfix
      obtain ⟨k, hk, hkf⟩ := hv.exists_free l
      have hkl : k ≠ l := by
        rintro rfl
        exact absurd (hkf.2.symm.trans hcl) (by decide)
      obtain ⟨e, c, hentry, hgrow⟩ := hx.exists_entryFor hnp
      rw [if_neg (by decide), hentry]
      exact ⟨_, _, rfl, Or.inl ⟨rfl, rfl, .extend hlab hd hl hgrow (hv.grown hgrow hkf hk hkl)⟩⟩
  | false =>
    have hlf := hx.isFixed_eq_false_iff.mp hfix
    rw [if_neg (by decide)]
    cases hone : x.hasOneFree l.player with
    | true =>
      -- the last free strategy of the player is the label
      have hfinal := hx.isFinal_of_hasOneFree hd.complete hone hfix (Nat.zero_le _)
        (Or.inr ⟨_, Cell.vertex_mem_vertices _, hl⟩)
      exact ⟨_, _, rfl, Or.inl ⟨rfl, rfl, .finish hv hlab.seen hfinal rfl hlab.length_labels
        hx.hasFlagsApart rfl fun _ => hx.isFixed_eq_false_iff.mp⟩⟩
    | false =>
      obtain ⟨k, hkf, hk, hkl⟩ := exists_ne_of_hasOneFree hone hfix rfl
      obtain ⟨c, hgrow⟩ := Cell.exists_grows hlf.1 (Run.refl _ _) hlf.2
      rw [List.idxOf_eq_length hlf.1] at hgrow
      rw [if_neg (by decide)]
      exact ⟨_, _, rfl, Or.inl ⟨rfl, rfl, .extend hlab hd hl hgrow
        (hv.grown hgrow (hx.isFixed_eq_false_iff.mp hkf) hk hkl)⟩⟩

/-- A label goes onto the path. -/
theorem IsLabelled.extend (h : x.IsLabelled G f seen)
    (hd : Door.IsValid G.room f ⟨true, x.cell, i⟩) (hl : f (x.cell.vertex G.room i) = l)
    (hg : x.cell.Grows l e c) (hc : c.IsValid G.room) :
    Arrives G f seen true ⟨true, x.cell, i⟩ (x.extend e l) := by
  have hx := h.isOn
  have hv := hx.valid
  obtain ⟨p, hs⟩ := hv.exists_isSource l
  have hfacet : c.facet G.room (e + 1) = _ := hg.facet_eq hv.nodup hv.path_open (hv.exists_open l)
  have hcell : (⟨x.path.insertIdx e l, (x.saturated.set l false).get, x.steps.get⟩ : Cell shape)
      = c := by
    refine Cell.ext hg.insertIdx_path ?_ hg.steps_eq.symm
    rw [get_set_eq_update, hg.closed_eq]
    rfl
  have hnew : (x.cell.vertex G.room e).stepOnto x.saturated.get l = c.vertex G.room (e + 1) := by
    rw [hg.vertex_new hv]
    funext k
    rw [Heights.stepOnto_apply (show IsSource x.saturated.get p l from hs),
      Heights.stepOnto_apply (Label.IsSource.opened_self hs)]
  have hd' : Door.IsValid G.room f ⟨true, c, e + 1⟩ :=
    ⟨hc, Nat.succ_le_of_lt (by have := hg.length_path; dsimp only; omega),
      hd.complete.grown hd.vertex_le (hl.symm ▸ hg) hv⟩
  unfold Arrives
  rw [Simplex.extend, hx.vertex_eq, ok_bind, stepOnto_eq hx.mesh hs, ok_bind, hnew]
  refine ⟨_, _, rfl, Or.inr ⟨rfl, _, ⟨hd, hd', .grow (hl.symm ▸ hg)⟩,
    stands_of_cell hcell hd' ⟨hx.mesh, hx.leash, hx.reference⟩ ?_ rfl ?_ ?_⟩⟩
  · -- the label is marked as being on the path
    intro k
    have hmem : k ∈ x.path.insertIdx e l ↔ k = l ∨ k ∈ x.path := by
      rw [show x.path.insertIdx e l = c.path from congrArg Cell.path hcell, hg.perm.mem_iff,
        List.mem_cons]
      rfl
    rw [StrategyTable.get_set_eq, hx.triangulated, decide_eq_decide.mpr hmem]
    by_cases hk : l = k
    · rw [if_pos hk, decide_eq_true (Or.inl hk.symm)]
    · rw [if_neg hk, decide_eq_decide.mpr (or_iff_right (Ne.symm hk))]
  · -- all labels stay, and a place for the new one is made
    show x.labels.insertIdx (e + 1) none = _
    rw [h.labels, hfacet]
  · rw [hfacet]
    exact h.seen

/-! ## §3. Out of a cell, across the facet opposite to the base -/

/-- The simplex beyond the facet opposite to the base. -/
theorem IsLabelled.turnBase (h : x.IsLabelled G f seen)
    (hd : Door.IsValid G.room f ⟨false, x.cell, 0⟩) (hp : x.path = entry :: rest)
    (hs : IsSource x.saturated.get b entry) {s : StrategyTable shape Bool}
    (ht : x.cell.Turns (x.cell.turned s.get entry rest))
    (hc : (x.cell.turned s.get entry rest).IsValid G.room) :
    ∃ d, Door.Next G.room f ⟨false, x.cell, 0⟩ d
      ∧ Stands G f seen { x.turnBase b.next entry with
          saturated := s
          current := G.point ((x.cell.vertex G.room x.path.length).stepOnto s.get entry) }
        .evaluate d := by
  have hx := h.isOn
  have hv := hx.valid
  have hf := hv.path_open entry (by rw [cell_path, hp]; exact List.mem_cons_self)
  have hlen : (x.cell.turned s.get entry rest).path.length = x.path.length :=
    ht.perm.length_eq
  have hfacet := ht.facet_eq hv hc
  have hlast := ht.vertex_last hv hc hp
  rw [hlen] at hfacet hlast
  have hpath : x.path.drop 1 ++ x.path.take 1 = rest ++ [entry] := by rw [hp]; simp
  have hcell : (⟨x.path.drop 1 ++ x.path.take 1, s.get, (x.shiftSteps b.next entry 1).get⟩
      : Cell shape) = x.cell.turned s.get entry rest := by
    refine Cell.ext hpath rfl ?_
    funext k
    show (x.shiftSteps b.next entry 1).get k = _
    rw [get_shiftSteps hs hf, Int.one_mul]
    rfl
  have hcomplete := (ht.isComplete_iff hv hc).mpr hd.complete
  rw [hlen] at hcomplete
  have hnext : Door.Next G.room f ⟨false, x.cell, 0⟩
      ⟨true, x.cell.turned s.get entry rest, x.path.length⟩ :=
    ⟨hd, ⟨hc, hlen.ge, hcomplete⟩, hlen ▸ .turn ht⟩
  refine ⟨_, hnext, stands_of_cell hcell hnext.target ⟨hx.mesh, hx.leash, hx.reference⟩ ?_ ?_ ?_ ?_⟩
  · -- the same labels are on the path
    intro l
    show x.triangulated.get l = decide (l ∈ x.path.drop 1 ++ x.path.take 1)
    rw [hx.triangulated, hpath]
    exact decide_eq_decide.mpr ht.perm.mem_iff.symm
  · exact congrArg G.point hlast.symm
  · -- the label of the base goes, and the last place is left open
    show x.labels.drop 1 ++ [none] = (((x.cell.turned s.get entry rest).facet G.room
      x.path.length).map fun y => some (f y)).insertIdx x.path.length none
    have hl : ((x.cell.facet G.room 0).map fun y => some (f y)).length = x.path.length := by
      rw [List.length_map, Cell.length_facet (Nat.zero_le _), cell_path]
    rw [hfacet, ← hl, List.insertIdx_length_self, h.labels, Cell.facet, List.eraseIdx_zero,
      List.drop_one, List.map_tail]
  · exact h.seen_of_facet_eq hfacet

/-- **The base is replaced.** -/
theorem IsLabelled.replaceBase (h : x.IsLabelled G f seen)
    (hd : Door.IsValid G.room f ⟨false, x.cell, 0⟩) (hp : x.path = entry :: rest) :
    Arrives G f seen false ⟨false, x.cell, 0⟩ (x.replaceBase entry) := by
  have hx := h.isOn
  have hv := hx.valid
  obtain ⟨b, hs⟩ := hv.exists_isSource entry
  rw [Simplex.replaceBase, predecessor_eq hs, ok_bind, successor_eq hs, ok_bind, hx.vertex_eq,
    ok_bind]
  extract_lets x₁ x₂ x₃
  have hex : x₁.isExhausted b = true ↔ x.cell.vertex G.room x.path.length b ≤ 0 :=
    isExhausted_iff hx.leash hx.reference rfl
  by_cases hb : x.cell.vertex G.room x.path.length b ≤ 0
  · rw [if_pos (hex.mpr hb)]
    have hbf := hv.isFree_of_source_used_up hp hs hb
    have hbfix : x.isFixed b = false := hx.isFixed_eq_false_iff.mpr hbf
    have hbp : b.player = entry.player := hs.player_eq.symm
    cases hone : x.hasOneFree entry.player with
    | true =>
      -- at the last vertex the only free strategy is used up as well
      rw [if_pos (show x₁.hasOneFree entry.player = true from hone)]
      have hfinal := hx.isFinal_of_hasOneFree hd.complete (hbp ▸ hone) hbfix (Nat.le_refl _)
        (Or.inl (Int.le_antisymm hb (hv.vertex_nonneg _ _)))
      exact ⟨_, _, rfl, Or.inl ⟨rfl, rfl, .finish hv h.seen hfinal rfl h.length_labels
        (hx.hasFlagsApart.saturate hbfix) rfl
        fun _ hl => hx.isFixed_eq_false_iff.mp (isFixed_of_saturate hl)⟩⟩
    | false =>
      obtain ⟨g, hgf, hgp, hgb⟩ := exists_ne_of_hasOneFree hone hbfix hbp
      have hc := hv.close hp hs hb (hx.isFixed_eq_false_iff.mp hgf) hgp hgb
      have ht := Cell.Turns.close (c := x.cell) hp hs
      have hsat : (x.saturated.set b true).get = shut x.cell.closed b := get_set_eq_update _ _ _
      rw [← hsat] at hc ht
      obtain ⟨d, hnext, hst⟩ := h.turnBase hd hp hs ht hc
      have hcur : x₃.current = G.point (x.cell.vertex G.room x.path.length) := rfl
      have hdrop : x₃.path.drop (x₃.path.length - 1) = [entry] := by
        show (x.path.drop 1 ++ x.path.take 1).drop ((x.path.drop 1 ++ x.path.take 1).length - 1)
          = [entry]
        rw [hp]
        simp
      rw [if_neg (by rw [show x₁.hasOneFree entry.player = false from hone]; decide), hcur, hdrop,
        stepsOnto_eq (x := x₃) hx.mesh fun l => hc.exists_isSource l, ok_bind]
      exact ⟨_, _, rfl, Or.inr ⟨rfl, d, hnext, hst⟩⟩
  · rw [if_neg (mt hex.mp hb)]
    have ht := Cell.Turns.plain (c := x.cell) hp
    have hc := hv.turn hp hs (by rw [cell_path]; omega)
    obtain ⟨d, hnext, hst⟩ := h.turnBase hd hp hs ht hc
    rw [stepOnto_eq (x := x₁) hx.mesh hs, ok_bind]
    exact ⟨_, _, rfl, Or.inr ⟨rfl, d, hnext, hst⟩⟩

/-! ## §4. Out of a cell, across the facet opposite to an inner vertex -/

/-- Which vertex is looked at does not matter to the labels. -/
theorem IsLabelled.lookAt (h : x.IsLabelled G f seen) (y : Point shape) :
    ({ x with current := y } : Simplex shape).IsLabelled G f seen :=
  ⟨⟨h.isOn.mesh, h.isOn.leash, h.isOn.reference, h.isOn.triangulated, h.isOn.valid⟩,
    h.labels, h.seen⟩

/-- **An inner vertex is replaced.** -/
theorem IsLabelled.replaceInner {p : Label shape} (h : x.IsLabelled G f seen)
    (hd : Door.IsValid G.room f ⟨false, x.cell, A.length + 1⟩)
    (hp : x.path = A ++ p :: entry :: B) :
    Arrives G f seen false ⟨false, x.cell, A.length + 1⟩
      (x.replaceInner (A.length + 1) p entry) := by
  have hx := h.isOn
  have hv := hx.valid
  obtain ⟨b, hs⟩ := hv.exists_isSource entry
  rw [Simplex.replaceInner, predecessor_eq hs, ok_bind, Nat.add_sub_cancel, hx.vertex_eq, ok_bind]
  extract_lets x₁
  have hex : x₁.isExhausted b = true ↔ x.cell.vertex G.room A.length b ≤ 0 :=
    isExhausted_iff hx.leash hx.reference rfl
  by_cases hb : x.cell.vertex G.room A.length b ≤ 0
  · rw [if_pos (hex.mpr hb)]
    obtain ⟨hg, -, hc⟩ := hv.drop_inner hp hs hb
    exact ⟨_, _, rfl, Or.inl ⟨rfl, rfl, .drop (h.lookAt _) hd hg hc⟩⟩
  · rw [if_neg (mt hex.mp hb), stepOnto_eq (x := x₁) hx.mesh hs, ok_bind]
    have hc := hv.swap hp hs (by omega)
    have hsw := Cell.Swaps.intro (c := x.cell) hp
    have hfacet : ({ x.cell with path := A ++ entry :: p :: B } : Cell shape).facet G.room
        (A.length + 1) = _ := Cell.facet_swap hp
    have hpath : (x.path.set A.length entry).set (A.length + 1) p = A ++ entry :: p :: B := by
      rw [hp]
      simp
    have hd' : Door.IsValid G.room f
        ⟨true, { x.cell with path := A ++ entry :: p :: B }, A.length + 1⟩ :=
      ⟨hc, by simp, hsw.isComplete_iff.mpr hd.complete⟩
    refine ⟨_, _, rfl, Or.inr ⟨rfl, _, ⟨hd, hd', .swap hsw⟩,
      stands_of_cell (Cell.ext hpath rfl rfl) hd' ⟨hx.mesh, hx.leash, hx.reference⟩ ?_ ?_ ?_ ?_⟩⟩
    · intro l
      show x.triangulated.get l = decide (l ∈ (x.path.set A.length entry).set (A.length + 1) p)
      rw [hx.triangulated, hpath, hp]
      exact decide_eq_decide.mpr ((List.Perm.swap _ _ B).append_left A).mem_iff
    · exact congrArg G.point (Cell.vertex_swapped (c := x.cell) hp).symm
    · -- the label of the vertex that is replaced goes
      show x.labels.set (A.length + 1) none = (((({ x.cell with path := A ++ entry :: p :: B }
        : Cell shape).facet G.room (A.length + 1)).map fun y => some (f y)).insertIdx
          (A.length + 1) none)
      rw [hfacet, h.labels, Cell.facet, ← List.eraseIdx_map, List.insertIdx_eraseIdx_self]
      rw [List.length_map, Cell.length_vertices, cell_path, hp]
      simp
    · exact h.seen_of_facet_eq hfacet

/-! ## §5. Out of a cell, across the facet opposite to the last vertex -/

/-- The simplex beyond the facet opposite to the last vertex.  A strategy may have
been freed before. -/
theorem IsLabelled.turnTip (h : x.IsLabelled G f seen)
    (hd : Door.IsValid G.room f ⟨false, x.cell, A.length + 1⟩) (hp : x.path = A ++ [entry])
    {s : StrategyTable shape Bool} (hs : IsSource s.get b entry) (hf : s.get entry = false)
    (ht : (x.cell.unturned s.get entry A).Turns x.cell)
    (hc : (x.cell.unturned s.get entry A).IsValid G.room) :
    ∃ d, Door.Next G.room f ⟨false, x.cell, A.length + 1⟩ d
      ∧ Stands G f seen { ({ x with saturated := s } : Simplex shape).turnTip b.next entry with
          current := (G.point (x.cell.base G.room)).transfer entry b G.mesh } .evaluate d := by
  have hx := h.isOn
  have hv := hx.valid
  have hlen : x.cell.path.length = A.length + 1 := by rw [cell_path, hp]; simp
  have hfacet := ht.facet_eq hc hv
  rw [hlen] at hfacet
  have hdrop : x.path.dropLast = A := by rw [hp, List.dropLast_concat]
  have hcell : (⟨entry :: x.path.dropLast, s.get,
      (({ x with saturated := s } : Simplex shape).shiftSteps b.next entry (-1)).get⟩ : Cell shape)
      = x.cell.unturned s.get entry A := by
    refine Cell.ext (by rw [hdrop]; rfl) rfl ?_
    funext k
    show (({ x with saturated := s } : Simplex shape).shiftSteps b.next entry (-1)).get k = _
    rw [get_shiftSteps (x := { x with saturated := s }) hs hf]
    show x.steps.get k + -1 * one (Run s.get k entry) = x.steps.get k - one (Run s.get k entry)
    omega
  have hcomplete := (ht.isComplete_iff (f := f) hc hv).mp (by rw [hlen]; exact hd.complete)
  have hnext : Door.Next G.room f ⟨false, x.cell, A.length + 1⟩
      ⟨true, x.cell.unturned s.get entry A, 0⟩ :=
    ⟨hd, ⟨hc, Nat.zero_le _, hcomplete⟩, .unturn ht hlen.symm⟩
  refine ⟨_, hnext, stands_of_cell hcell hnext.target ⟨hx.mesh, hx.leash, hx.reference⟩ ?_ ?_ ?_ ?_⟩
  · intro l
    show x.triangulated.get l = decide (l ∈ entry :: x.path.dropLast)
    rw [hx.triangulated, hdrop]
    exact decide_eq_decide.mpr ht.perm.mem_iff
  · show (G.point (x.cell.base G.room)).transfer entry b G.mesh
      = G.point ((x.cell.unturned s.get entry A).base G.room)
    rw [Raster.transfer_point]
    exact congrArg G.point (funext fun k => (Cell.base_unturned hs hf k).symm)
  · -- the label of the last vertex goes, and the first place is left open
    show none :: x.labels.dropLast = (((x.cell.unturned s.get entry A).facet G.room 0).map
      fun y => some (f y)).insertIdx 0 none
    rw [List.insertIdx_zero, ← hfacet, Cell.facet, List.eraseIdx_eq_dropLast
      (by rw [Cell.length_vertices, hlen]), h.labels, List.map_dropLast]
  · exact h.seen_of_facet_eq hfacet.symm

/-- **The last vertex is replaced.** -/
theorem IsLabelled.replaceTip (h : x.IsLabelled G f seen)
    (hd : Door.IsValid G.room f ⟨false, x.cell, A.length + 1⟩) (hp : x.path = A ++ [entry]) :
    Arrives G f seen false ⟨false, x.cell, A.length + 1⟩ (x.replaceTip entry) := by
  have hx := h.isOn
  have hv := hx.valid
  have hlen : x.path.length = A.length + 1 := by rw [hp]; simp
  have hf : x.saturated.get entry = false := hv.path_open entry (by rw [cell_path, hp]; simp)
  obtain ⟨b, hs⟩ := hv.exists_isSource entry
  rw [Simplex.replaceTip, successor_eq hs, ok_bind, hx.vertex_eq, ok_bind]
  extract_lets x₁
  have hlab : x₁.IsLabelled G f seen := h.lookAt _
  have hex : x₁.isExhausted entry = true ↔ x.cell.base G.room entry ≤ 0 :=
    isExhausted_iff hx.leash hx.reference rfl
  by_cases h0 : x₁.steps.get b.next = 0
  · -- nothing lies beyond, unless a closed strategy is freed
    rw [if_pos h0]
    by_cases hb : x.cell.base G.room entry ≤ 0
    · obtain ⟨hg, hc⟩ := hv.drop_last_closed hp hb
      rw [if_pos (hex.mpr hb), show x₁.path.length = A.length + 1 from hlen]
      exact ⟨_, _, rfl, Or.inl ⟨rfl, rfl, .drop hlab hd hg hc⟩⟩
    · rw [if_neg (mt hex.mp hb)]
      cases hw : x₁.releasable? b.next entry with
      | none =>
        have hzero := steps_of_releasable?_eq_none (x := x₁) hs h0 hw
        obtain ⟨hg, hc⟩ := hv.drop_last_free hp hzero (by omega)
        rw [show x₁.path.length = A.length + 1 from hlen]
        exact ⟨_, _, rfl, Or.inl ⟨rfl, rfl, .drop hlab hd hg hc⟩⟩
      | some w =>
        obtain ⟨hwc, hwr, hw0, hw1⟩ := releasable?_eq_some (x := x₁) hs hw
        have hpos := hv.steps_nonneg w.next
        exact ⟨_, _, rfl, Or.inl ⟨rfl, rfl,
          .release hlab hd hp rfl hwc hwr hw0 (lt_of_le_of_ne hpos hw1.symm)
            (not_le.mp hb)⟩⟩
  · rw [if_neg h0, predecessor_eq (x := x₁) hs, ok_bind, show x₁.mesh = G.mesh from hx.mesh]
    have hpos := hv.steps_nonneg b.next
    have hc := hv.unturn hp hs (lt_of_le_of_ne hpos (Ne.symm h0))
    obtain ⟨d, hnext, hst⟩ := h.turnTip hd hp hs hf (Cell.turns_unturned hp) hc
    exact ⟨_, _, rfl, Or.inr ⟨rfl, d, hnext, hst⟩⟩

/-! ## §6. Along the boundary -/

/-- **A strategy is released.** -/
theorem IsLabelled.release (h : x.IsLabelled G f seen)
    (hd : Door.IsValid G.room f ⟨false, x.cell, A.length + 1⟩) (hp : x.path = A ++ [entry])
    (hcur : x.current = G.point (x.cell.base G.room)) (hwc : x.saturated.get w = true)
    (hwr : Run x.saturated.get w entry) (hw0 : x.steps.get w = 0) (hw1 : 0 < x.steps.get w.next)
    (hb : 0 < x.cell.base G.room entry) :
    Arrives G f seen true ⟨false, x.cell, A.length + 1⟩ (x.release w) := by
  have hx := h.isOn
  have hv := hx.valid
  have hf : x.saturated.get entry = false := hv.path_open entry (by rw [cell_path, hp]; simp)
  have hsat : (x.saturated.set w false).get = opened x.cell.closed w := get_set_eq_update _ _ _
  obtain ⟨hs, hc⟩ := hv.unclose hp hwc hwr hw0 hw1 hb
  have ht : (x.cell.unturned (opened x.cell.closed w) entry A).Turns x.cell :=
    Cell.turns_unturned_opened hp hwc hs
  rw [← hsat] at hs hc ht
  obtain ⟨d, hnext, hst⟩ := h.turnTip hd hp hs (hsat ▸ opened_of_free _ hf) ht hc
  rw [← hx.mesh, ← hcur] at hst
  rw [Simplex.release, show x.path.getLast? = some entry by rw [hp, List.getLast?_concat]]
  dsimp only
  rw [successor_eq (x := { x with saturated := x.saturated.set w false }) hs, ok_bind,
    predecessor_eq (x := { x with saturated := x.saturated.set w false }) hs, ok_bind]
  exact ⟨_, _, rfl, Or.inr ⟨rfl, d, hnext, hst⟩⟩

/-- **An entry goes off the path.** -/
theorem IsLabelled.drop (h : x.IsLabelled G f seen)
    (hd : Door.IsValid G.room f ⟨false, x.cell, e + 1⟩) (hg : c.Grows l e x.cell)
    (hc : c.IsValid G.room) :
    Arrives G f seen true ⟨false, x.cell, e + 1⟩ (x.drop (e + 1)) := by
  have hx := h.isOn
  have hv := hx.valid
  have hfacet : x.cell.facet G.room (e + 1) = _ :=
    hg.facet_eq hc.nodup hc.path_open (hc.exists_open l)
  obtain ⟨i, hi, hil, hcomplete⟩ := hd.complete.shrunk hg hc
  obtain ⟨m, hm, hidx, hml⟩ := exists_idxOf?_known hi hil
  have hd' : Door.IsValid G.room f ⟨false, c, m⟩ :=
    ⟨hc, hm, hcomplete.compare hi hm (hil.trans hml.symm)⟩
  have hlabels : x.labels.eraseIdx (e + 1) = (c.vertices G.room).map fun y => some (f y) := by
    rw [h.labels, List.eraseIdx_map, ← hfacet, Cell.facet]
  -- the label is closed again where it is used up at the base
  have hsat : (if ({ x with current := x.base } : Simplex shape).isExhausted l then
      x.saturated.set l true else x.saturated).get = c.closed := by
    have hex : ({ x with current := x.base } : Simplex shape).isExhausted l = true
        ↔ c.closed l = true := by
      rw [isExhausted_iff (x := { x with current := x.base }) hx.leash hx.reference hx.base_eq,
        hc.closed_iff hg.not_mem, hg.base_eq G.room]
      have := hc.base_nonneg l
      omega
    have hopen : x.saturated.get = opened c.closed l := hg.closed_eq
    cases hcl : c.closed l with
    | true =>
      rw [if_pos (hex.mpr hcl), get_set_eq_update, hopen]
      exact shut_opened hcl
    | false =>
      rw [if_neg (by rw [hex, hcl]; decide), hopen, opened, ← hcl, Function.update_eq_self]
  rw [Simplex.drop, show x.path[e]? = some l from hg.getElem?_path]
  dsimp only
  rw [hlabels, hidx]
  refine ⟨_, _, rfl, Or.inr ⟨rfl, _, ⟨hd, hd', .shrink (hml.symm ▸ hg)⟩,
    stands_of_labelled (Cell.ext hg.eraseIdx_path hsat hg.steps_eq) hd'
      ⟨hx.mesh, hx.leash, hx.reference⟩ ?_ rfl ?_⟩⟩
  · intro k
    have hmem : k ∈ x.path ↔ k = l ∨ k ∈ c.path := by
      rw [← List.mem_cons]
      exact hg.perm.mem_iff
    show (x.triangulated.set l false).get k = decide (k ∈ x.path.eraseIdx e)
    rw [StrategyTable.get_set_eq, hx.triangulated,
      show x.path.eraseIdx e = c.path from hg.eraseIdx_path]
    by_cases hk : l = k
    · rw [if_pos hk, decide_eq_false (hk ▸ hg.not_mem)]
    · rw [if_neg hk]
      exact decide_eq_decide.mpr (hmem.trans (or_iff_right (Ne.symm hk)))
  · exact fun y hy => h.seen y (Cell.mem_vertices_of_mem_facet (hfacet ▸ hy))

/-- **A vertex is replaced.** -/
theorem IsLabelled.replace (h : x.IsLabelled G f seen)
    (hd : Door.IsValid G.room f ⟨false, x.cell, m⟩) (hp : x.path ≠ []) :
    Arrives G f seen false ⟨false, x.cell, m⟩ (x.replace m) := by
  have hm : m ≤ x.path.length := hd.vertex_le
  unfold Simplex.replace
  split
  · next hnil => exact absurd hnil hp
  · next entry rest hpath => exact h.replaceBase hd hpath
  · next v first rest hpath =>
    cases hat : x.path[v + 1]? with
    | some entry =>
      -- the vertex lies between two entries
      have hlt := (List.getElem?_eq_some_iff.mp hat).1
      have hlen : (x.path.take v).length = v := List.length_take_of_le (by omega)
      have hbefore : x.path.getD v first = x.path[v] := by
        rw [List.getD_eq_getElem?_getD, List.getElem?_eq_getElem (by omega), Option.getD_some]
      have hsplit : x.path
          = x.path.take v ++ x.path.getD v first :: entry :: x.path.drop (v + 1 + 1) := by
        conv_lhs => rw [← List.take_append_drop v x.path, List.drop_eq_getElem_cons (by omega),
          List.drop_eq_getElem_cons hlt]
        rw [hbefore, (List.getElem?_eq_some_iff.mp hat).2]
      have harr := h.replaceInner (A := x.path.take v) (by rw [hlen]; exact hd) hsplit
      rwa [hlen] at harr
    | none =>
      have hge := List.getElem?_eq_none_iff.mp hat
      have hlen : (first :: rest).dropLast.length + 1 = v + 1 := by
        rw [List.length_dropLast, ← hpath]
        omega
      have hsplit : x.path = (first :: rest).dropLast
          ++ [(first :: rest).getLast (List.cons_ne_nil first rest)] := by
        rw [List.dropLast_append_getLast, hpath]
      have harr := h.replaceTip (by rw [hlen]; exact hd) hsplit
      rwa [hlen] at harr

end Simplex

namespace Stands

/-- **Every move that evaluates no label arrives.** -/
theorem step {mv : Move shape} (h : Stands G f seen x mv a)
    (hp : a.entering = false → a.cell.path ≠ []) (he : mv ≠ .evaluate) (hf : mv ≠ .finish) :
    Arrives G f seen mv.isMidway a (x.step mv) := by
  cases h with
  | evaluate => exact absurd rfl he
  | extend h hd hl hg hc => exact h.extend hd hl hg hc
  | replace h hd => exact h.replace hd (hp rfl)
  | drop h hd hg hc => exact h.drop hd hg hc
  | release h hd hpath hcur hwc hwr hw0 hw1 hb =>
    exact h.release hd hpath hcur hwc hwr hw0 hw1 hb
  | finish => exact absurd rfl hf

end Stands

end

end SimplicialNash
