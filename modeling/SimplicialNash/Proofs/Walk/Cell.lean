/-
  SimplicialNash.Proofs.Walk.Cell
  ───────────────────────────────
  The simplices of a walk, without the program's bookkeeping.

  A `Cell` is what a simplex is in itself: its path, the saturated (here:
  closed) labels and the ledger.  Weights are counted in whole meshes above the
  lowest weight that is allowed (`Heights`), so that zero means "used up",
  whether at the boundary of the simplex of strategies or at the end of the
  leash.  At the reference vertex the height of a label is its `room`.

  `Cell.IsValid` is the invariant of a walk.  It is a conjunction of local
  facts; what follows from it is the geometry that the moves rest on:
    * `IsValid.vertex_apply`: the heights of any vertex in closed form;
    * `IsValid.base_free_pos`: a free label is never used up at the base;
    * `IsValid.base_last_pos`: nor is the last label of the path, as long as
      the ledger has counted anything for it.
-/
import SimplicialNash.Proofs.Circle

namespace SimplicialNash

open Label

/-! ## §1. Heights and grid steps -/

/-- For every label, the number of meshes by which its weight is above the
lowest one that is allowed. -/
abbrev Heights (shape : Shape) := Label shape → Int

/-- One grid step: one mesh is moved onto a label from its source. -/
noncomputable def Heights.stepOnto {shape : Shape} (closed : Label shape → Bool)
    (y : Heights shape) (l : Label shape) : Heights shape :=
  fun k => y k + one (k = l) - one (IsSource closed k l)

theorem one_or {P Q : Prop} (h : P → ¬ Q) : one (P ∨ Q) = one P + one Q := by
  by_cases hP : P
  · rw [one_of hP, one_of (Or.inl hP), one_of_not (h hP)]; rfl
  · rw [one_of_not hP, propext (or_iff_right hP), Int.zero_add]

section

variable {shape : Shape} {closed : Label shape → Bool}

/-- Grid steps onto different free labels, one after another, give each of them
one mesh and take one from each of their sources. -/
theorem foldl_stepOnto_apply {ls : List (Label shape)} (hn : ls.Nodup)
    (ho : ∀ l ∈ ls, closed l = false) (y : Heights shape) (k : Label shape) :
    ls.foldl (Heights.stepOnto closed) y k
      = y k + one (k ∈ ls) - one (∃ h ∈ ls, IsSource closed k h) := by
  induction ls generalizing y with
  | nil => simp
  | cons l ls ih =>
    obtain ⟨hl, hn⟩ := List.nodup_cons.mp hn
    have hof : closed l = false := ho l List.mem_cons_self
    -- different free labels have different sources, so each sum has one more term
    have ho' : ∀ h ∈ ls, closed h = false := fun h hh => ho h (List.mem_cons_of_mem l hh)
    have hgain : one (k ∈ l :: ls) = one (k = l) + one (k ∈ ls) := by
      rw [propext List.mem_cons]
      exact one_or fun e hk => hl (e ▸ hk)
    have hloss : one (∃ h ∈ l :: ls, IsSource closed k h)
        = one (IsSource closed k l) + one (∃ h ∈ ls, IsSource closed k h) := by
      have e : (∃ h ∈ l :: ls, IsSource closed k h)
          ↔ IsSource closed k l ∨ ∃ h ∈ ls, IsSource closed k h := by simp
      rw [propext e]
      refine one_or ?_
      rintro hs ⟨h, hh, hs'⟩
      exact hl (hs.target_unique hs' hof (ho' h hh) ▸ hh)
    rw [List.foldl_cons, ih hn ho', hgain, hloss, Heights.stepOnto]
    omega

end

/-! ## §2. Cells -/

/-- A simplex of a walk: the labels along which grid steps lead through its
vertices, the closed labels, and the ledger. -/
@[ext] structure Cell (shape : Shape) where
  path : List (Label shape)
  closed : Label shape → Bool
  steps : Label shape → Int

namespace Cell

variable {shape : Shape}

/-- A label that is neither on the path nor closed. -/
def IsFree (c : Cell shape) (l : Label shape) : Prop := l ∉ c.path ∧ c.closed l = false

/-- The heights of the base vertex. -/
def base (room : Label shape → Nat) (c : Cell shape) : Heights shape :=
  fun k => room k + c.steps k - c.steps k.next

/-- The heights of all vertices, from the base on. -/
noncomputable def vertices (room : Label shape → Nat) (c : Cell shape) : List (Heights shape) :=
  c.path.scanl (Heights.stepOnto c.closed) (c.base room)

/-- The heights of the vertex with a given number. -/
noncomputable def vertex (room : Label shape → Nat) (c : Cell shape) (i : Nat) : Heights shape :=
  (c.path.take i).foldl (Heights.stepOnto c.closed) (c.base room)

/-- The vertices but the one with a given number. -/
noncomputable def facet (room : Label shape → Nat) (c : Cell shape) (i : Nat) :
    List (Heights shape) :=
  (c.vertices room).eraseIdx i

section

variable {room : Label shape → Nat} {c : Cell shape}

theorem length_vertices : (c.vertices room).length = c.path.length + 1 :=
  List.length_scanl

theorem vertex_zero : c.vertex room 0 = c.base room := rfl

theorem getElem?_vertices {i : Nat} (h : i ≤ c.path.length) :
    (c.vertices room)[i]? = some (c.vertex room i) := by
  rw [vertices, List.getElem?_scanl, if_pos h, vertex]

theorem vertex_mem_vertices (i : Nat) : c.vertex room i ∈ c.vertices room := by
  by_cases h : i ≤ c.path.length
  · exact List.mem_of_getElem? (getElem?_vertices h)
  · have e : c.vertex room i = c.vertex room c.path.length := by
      rw [vertex, vertex, List.take_of_length_le (by omega), List.take_length]
    exact e ▸ List.mem_of_getElem? (getElem?_vertices (Nat.le_refl _))

theorem exists_of_mem_vertices {y : Heights shape} (hy : y ∈ c.vertices room) :
    ∃ i ≤ c.path.length, y = c.vertex room i := by
  obtain ⟨i, hi⟩ := List.mem_iff_getElem?.mp hy
  have hlt := (List.getElem?_eq_some_iff.mp hi).1
  rw [length_vertices] at hlt
  rw [getElem?_vertices (Nat.le_of_lt_succ hlt)] at hi
  exact ⟨i, Nat.le_of_lt_succ hlt, (Option.some.inj hi).symm⟩

/-- The vertex before which an initial part of the path ends. -/
theorem vertex_append {A B : List (Label shape)} (hp : c.path = A ++ B) :
    c.vertex room A.length = A.foldl (Heights.stepOnto c.closed) (c.base room) := by
  rw [vertex, hp, List.take_left]

/-- The next vertex lies one grid step further. -/
theorem vertex_append_cons {A B : List (Label shape)} {l : Label shape}
    (hp : c.path = A ++ l :: B) :
    c.vertex room (A.length + 1) = (c.vertex room A.length).stepOnto c.closed l := by
  have hp' : c.path = (A ++ [l]) ++ B := by rw [hp]; simp
  have h : c.vertex room (A ++ [l]).length = _ := vertex_append hp'
  rw [List.length_append, List.length_singleton, List.foldl_append] at h
  rw [h, vertex_append hp]
  rfl

/-- Vertices that lie behind a path entry are reached from the one behind it. -/
theorem vertices_append_cons {A B : List (Label shape)} {l : Label shape}
    (hp : c.path = A ++ l :: B) :
    c.vertices room = A.scanl (Heights.stepOnto c.closed) (c.base room)
      ++ B.scanl (Heights.stepOnto c.closed) (c.vertex room (A.length + 1)) := by
  rw [vertices, hp, List.scanl_append, List.scanl_cons, List.tail_cons, vertex_append_cons hp,
    vertex_append hp]

end

/-! ## §3. The invariant -/

/-- The invariant of a walk. -/
structure IsValid (room : Label shape → Nat) (c : Cell shape) : Prop where
  nodup : c.path.Nodup
  /-- Triangulated labels are not saturated. -/
  path_open : ∀ l ∈ c.path, c.closed l = false
  /-- Every player has a free strategy. -/
  exists_free : ∀ l : Label shape, ∃ k, k.player = l.player ∧ c.IsFree k
  steps_nonneg : ∀ l, 0 ≤ c.steps l
  steps_free : ∀ l, c.IsFree l → c.steps l = 0
  /-- Closed labels are used up. -/
  base_closed : ∀ l, c.closed l = true → c.base room l = 0
  room_free : ∀ l, c.IsFree l → 0 < room l
  /-- No vertex lies outside the grid. -/
  nonneg : ∀ y ∈ c.vertices room, ∀ l, 0 ≤ y l

namespace IsValid

variable {room : Label shape → Nat} {c : Cell shape} {b h k l p : Label shape}
  {A B : List (Label shape)}

theorem exists_open (hv : c.IsValid room) (l : Label shape) :
    ∃ k, k.player = l.player ∧ c.closed k = false := by
  obtain ⟨k, hk, -, hf⟩ := hv.exists_free l
  exact ⟨k, hk, hf⟩

theorem exists_isSource (hv : c.IsValid room) (l : Label shape) :
    ∃ p, IsSource c.closed p l := by
  obtain ⟨k, hk, hf⟩ := hv.exists_open l
  exact Label.exists_isSource hf hk.symm

theorem exists_run (hv : c.IsValid room) (l : Label shape) :
    ∃ e, Run c.closed l e ∧ c.closed e = false := by
  obtain ⟨k, hk, hf⟩ := hv.exists_open l
  exact Label.exists_run hf hk.symm

/-- A label on the path is not its own source. -/
theorem ne_of_isSource (hv : c.IsValid room) (hs : IsSource c.closed p l) (hl : l ∈ c.path) :
    p ≠ l := by
  rintro rfl
  obtain ⟨k, hk, hkp, hf⟩ := hv.exists_free p
  exact hkp (hs.eq_of_self hf hk ▸ hl)

/-- The heights of a vertex: those of the base, and one mesh more or less for
what lies before it on the path. -/
theorem vertex_apply (hv : c.IsValid room) (i : Nat) (k : Label shape) :
    c.vertex room i k = c.base room k + one (k ∈ c.path.take i)
      - one (∃ h ∈ c.path.take i, IsSource c.closed k h) :=
  foldl_stepOnto_apply (hv.nodup.sublist (List.take_sublist _ _))
    (fun l hl => hv.path_open l (List.mem_of_mem_take hl)) _ _

theorem vertex_nonneg (hv : c.IsValid room) (i : Nat) (k : Label shape) :
    0 ≤ c.vertex room i k := hv.nonneg _ (vertex_mem_vertices i) k

/-- A closed label is used up at every vertex. -/
theorem vertex_closed (hv : c.IsValid room) (hk : c.closed k = true) (i : Nat) :
    c.vertex room i k = 0 := by
  have hmem : k ∉ c.path.take i := by
    intro hm
    exact absurd (hk.symm.trans (hv.path_open k (List.mem_of_mem_take hm))) (by decide)
  have hnone : ¬ ∃ h ∈ c.path.take i, IsSource c.closed k h := by
    rintro ⟨h, -, hs⟩
    exact absurd (hk.symm.trans hs.1) (by decide)
  rw [hv.vertex_apply, hv.base_closed k hk, one_of_not hmem, one_of_not hnone]
  rfl

theorem base_nonneg (hv : c.IsValid room) (k : Label shape) : 0 ≤ c.base room k :=
  hv.vertex_nonneg 0 k

/-- The ledger grows along closed labels. -/
theorem steps_mono (hv : c.IsValid room) (hr : Run c.closed k h) : c.steps k ≤ c.steps h := by
  induction hr using Relation.ReflTransGen.head_induction_on with
  | refl => exact Int.le_refl _
  | @head x y hxy _ ih =>
    obtain ⟨hx, rfl⟩ := hxy
    have hb := hv.base_closed x hx
    unfold base at hb
    omega

/-- A closed label's counts are zero if those of the label that it leads to are. -/
theorem steps_eq_zero (hv : c.IsValid room) (hr : Run c.closed k h) (hh : c.steps h = 0) :
    c.steps k = 0 := by
  have h1 := hv.steps_mono hr
  have h2 := hv.steps_nonneg k
  omega

/-- What stands on the path before a label whose source is used up at the base
is that source. -/
theorem base_pos_of_mem_path (hv : c.IsValid room) (hp : c.path = A ++ h :: B)
    (hs : IsSource c.closed k h) (hk : k ∉ A) : 0 < c.base room k := by
  have hh : h ∈ c.path := by rw [hp]; simp
  have hkh : k ≠ h := hv.ne_of_isSource hs hh
  have hv1 := hv.vertex_nonneg (A.length + 1) k
  have ht : c.path.take (A.length + 1) = A ++ [h] := by
    rw [hp, List.take_length_add_append]; rfl
  have hmem : k ∉ A ++ [h] := by simp [hk, hkh]
  have hex : ∃ x ∈ A ++ [h], IsSource c.closed k x := ⟨h, by simp, hs⟩
  rw [hv.vertex_apply, ht, one_of_not hmem, one_of hex] at hv1
  omega

/-- A label whose run ends off the path has lost nothing at the base. -/
theorem steps_next_eq_zero (hv : c.IsValid room) (hr : Run c.closed k.next h)
    (hf : c.closed h = false) (hp : h ∉ c.path) : c.steps k.next = 0 :=
  hv.steps_eq_zero hr (hv.steps_free h ⟨hp, hf⟩)

/-- **A free label is not used up at the base.** -/
theorem base_free_pos (hv : c.IsValid room) (hl : c.IsFree l) : 0 < c.base room l := by
  obtain ⟨h, hr, hf⟩ := hv.exists_run l.next
  by_cases hp : h ∈ c.path
  · obtain ⟨A, B, e⟩ := List.append_of_mem hp
    refine hv.base_pos_of_mem_path e ⟨hl.2, hr⟩ ?_
    intro hA
    exact hl.1 (by rw [e]; exact List.mem_append_left _ hA)
  · have h1 := hv.steps_next_eq_zero hr hf hp
    have h2 := hv.steps_free l hl
    have h3 := hv.room_free l hl
    unfold base
    omega

/-- Off the path, the closed labels are those that are used up at the base. -/
theorem closed_iff (hv : c.IsValid room) (hl : l ∉ c.path) :
    c.closed l = true ↔ c.base room l = 0 := by
  constructor
  · exact hv.base_closed l
  · intro h0
    cases hc : c.closed l with
    | true => rfl
    | false => have := hv.base_free_pos ⟨hl, hc⟩; omega

/-- **The last label of the path is not used up at the base**, once the ledger
has counted anything for it. -/
theorem base_last_pos (hv : c.IsValid room) (hp : c.path = A ++ [h]) (hs : 0 < c.steps h) :
    0 < c.base room h := by
  have hh : h ∈ c.path := by rw [hp]; simp
  obtain ⟨x, hr, hf⟩ := hv.exists_run h.next
  have hsrc : IsSource c.closed h x := ⟨hv.path_open h hh, hr⟩
  by_cases hx : x ∈ c.path
  · obtain ⟨A', B', e⟩ := List.append_of_mem hx
    refine hv.base_pos_of_mem_path e hsrc ?_
    intro hA
    -- then `h` would stand on the path before `x`, although it is the last
    have hd : A = A' ++ (x :: B').dropLast := by
      rw [← List.dropLast_append_of_ne_nil (List.cons_ne_nil x B'), ← e, hp,
        List.dropLast_concat]
    have hn := hv.nodup
    rw [hp, List.nodup_append] at hn
    exact hn.2.2 h (hd ▸ List.mem_append_left _ hA) h (by simp) rfl
  · have h1 := hv.steps_next_eq_zero hr hf hx
    unfold base
    omega

/-- **A used-up source of a path entry stands directly before that entry.** -/
theorem eq_of_source_used_up (hv : c.IsValid room) (hp : c.path = A ++ p :: h :: B)
    (hs : IsSource c.closed b h) (hb : c.vertex room A.length b ≤ 0) : b = p := by
  have hp' : c.path = (A ++ [p]) ++ h :: B := by rw [hp]; simp
  have hh : h ∈ c.path := by rw [hp]; simp
  have hbh : b ≠ h := hv.ne_of_isSource hs hh
  have h0 := hv.vertex_nonneg (A.length + 1 + 1) b
  have h1 : c.vertex room (A.length + 1) b = _ := congrFun (vertex_append_cons hp) b
  have h2 : c.vertex room ((A ++ [p]).length + 1) b = _ := congrFun (vertex_append_cons hp') b
  rw [List.length_append, List.length_singleton, Heights.stepOnto, one_of_not hbh, one_of hs] at h2
  rw [Heights.stepOnto] at h1
  have h3 := one_nonneg (IsSource c.closed b p)
  by_contra hne
  rw [one_of_not hne] at h1
  omega

/-- **The source of the first path entry is free**, if it is used up at the last
vertex. -/
theorem isFree_of_source_used_up (hv : c.IsValid room) (hp : c.path = h :: B)
    (hs : IsSource c.closed b h) (hb : c.vertex room c.path.length b ≤ 0) : c.IsFree b := by
  refine ⟨?_, hs.1⟩
  intro hm
  have hbase : 0 < c.base room b := hv.base_pos_of_mem_path (A := []) hp hs (by simp)
  have hlast := hv.vertex_apply c.path.length b
  have h1 := one_le (∃ x ∈ c.path, IsSource c.closed b x)
  rw [List.take_length, one_of hm] at hlast
  omega

end IsValid

end Cell

end SimplicialNash
