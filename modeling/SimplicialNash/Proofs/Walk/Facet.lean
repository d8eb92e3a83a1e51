/-
  SimplicialNash.Proofs.Walk.Facet
  ────────────────────────────────
  Which cells lie next to each other.

  Two cells of the same dimension meet in a facet, or one cell is a facet of a
  larger one.  Each relation is stated once, in one direction:

      Turns — the base goes, and comes back beyond the far side; where the far
              side lies on the boundary, the source of the step is closed
      Swaps — an inner vertex goes, two neighbouring path entries change places
      Grows — a label enters the path

  A walk uses each of them in both directions.  For each the shared facet is
  literally the same list of vertices: `facet_turned`, `facet_swap` and
  `Grows.facet_eq`.
-/
import SimplicialNash.Proofs.Walk.Cell

namespace SimplicialNash

open Label

/-! ## §1. Grid steps under other closed labels -/

section

variable {shape : Shape} {closed closed' : Label shape → Bool} {k l p : Label shape}

/-- A label's only source, as an indicator. -/
theorem Label.IsSource.one_eq (hs : IsSource closed p l) (k : Label shape) :
    one (IsSource closed k l) = one (k = p) := by
  have e : IsSource closed k l ↔ k = p := ⟨fun h => h.unique hs, fun h => h ▸ hs⟩
  rw [propext e]

theorem Heights.stepOnto_apply (hs : IsSource closed p l) (y : Heights shape) (k : Label shape) :
    y.stepOnto closed l k = y k + one (k = l) - one (k = p) := by
  rw [stepOnto, hs.one_eq]

/-- A step from a source that is not used up stays inside the grid. -/
theorem Heights.stepOnto_nonneg (hs : IsSource closed p l) {y : Heights shape}
    (hy : ∀ k, 0 ≤ y k) (hp : 0 < y p) (k : Label shape) : 0 ≤ y.stepOnto closed l k := by
  have h1 := hy k
  have h2 := one_nonneg (k = l)
  rw [stepOnto_apply hs]
  by_cases hk : k = p
  · rw [one_of hk]; rw [← hk] at hp; omega
  · rw [one_of_not hk]; omega

theorem Heights.stepOnto_congr (h : ∀ k, IsSource closed k l ↔ IsSource closed' k l)
    (y : Heights shape) : y.stepOnto closed l = y.stepOnto closed' l := by
  funext k
  rw [stepOnto, stepOnto, propext (h k)]

theorem foldl_stepOnto_congr {ls : List (Label shape)}
    (h : ∀ l ∈ ls, ∀ k, IsSource closed k l ↔ IsSource closed' k l) (y : Heights shape) :
    ls.foldl (Heights.stepOnto closed) y = ls.foldl (Heights.stepOnto closed') y := by
  induction ls generalizing y with
  | nil => rfl
  | cons l ls ih =>
    rw [List.foldl_cons, List.foldl_cons, Heights.stepOnto_congr (h l List.mem_cons_self),
      ih fun m hm => h m (List.mem_cons_of_mem l hm)]

theorem scanl_stepOnto_congr {ls : List (Label shape)}
    (h : ∀ l ∈ ls, ∀ k, IsSource closed k l ↔ IsSource closed' k l) (y : Heights shape) :
    ls.scanl (Heights.stepOnto closed) y = ls.scanl (Heights.stepOnto closed') y := by
  induction ls generalizing y with
  | nil => simp
  | cons l ls ih =>
    rw [List.scanl_cons, List.scanl_cons, Heights.stepOnto_congr (h l List.mem_cons_self),
      ih fun m hm => h m (List.mem_cons_of_mem l hm)]

end

namespace Cell

variable {shape : Shape}

/-! ## §2. The relations -/

/-- The cell beyond the facet opposite to the base: the base goes one grid step
onto the first label of the path, which becomes the last. -/
noncomputable def turned (c : Cell shape) (closed' : Label shape → Bool) (h : Label shape)
    (rest : List (Label shape)) : Cell shape where
  path := rest ++ [h]
  closed := closed'
  steps := fun k => c.steps k + one (Run c.closed k h)

/-- The cell beyond the facet opposite to the last vertex. -/
noncomputable def unturned (c : Cell shape) (closed' : Label shape → Bool) (h : Label shape)
    (rest : List (Label shape)) : Cell shape where
  path := h :: rest
  closed := closed'
  steps := fun k => c.steps k - one (Run closed' k h)

/-- The base of the one cell and the last vertex of the other one lie opposite to
a common facet.  Beyond it the source of the step may be closed. -/
inductive Turns : Cell shape → Cell shape → Prop
  | plain {c : Cell shape} {h : Label shape} {rest : List (Label shape)}
      (hp : c.path = h :: rest) : Turns c (c.turned c.closed h rest)
  | close {c : Cell shape} {b h : Label shape} {rest : List (Label shape)}
      (hp : c.path = h :: rest) (hs : IsSource c.closed b h) :
      Turns c (c.turned (shut c.closed b) h rest)

/-- Two cells have the facet opposite to an inner vertex in common. -/
inductive Swaps : Cell shape → Nat → Cell shape → Prop
  | intro {c : Cell shape} {p h : Label shape} {A B : List (Label shape)}
      (hp : c.path = A ++ p :: h :: B) :
      Swaps c (A.length + 1) { c with path := A ++ h :: p :: B }

/-- A cell is the facet of another one that has a label more on its path: before
the free label that the new one leads to, or at the end if that one is not on
the path. -/
inductive Grows : Cell shape → Label shape → Nat → Cell shape → Prop
  | intro {c : Cell shape} {l h : Label shape} {A B : List (Label shape)}
      (hp : c.path = A ++ B) (hl : l ∉ c.path) (hr : Run c.closed l h)
      (hf : c.closed h = false) (hB : B.head? = some h ∨ (B = [] ∧ h ∉ A)) :
      Grows c l A.length ⟨A ++ l :: B, opened c.closed l, c.steps⟩

/-! ## §3. The common facet -/

section

variable {room : Label shape → Nat} {c c' : Cell shape} {b h k l p : Label shape}
  {A B rest : List (Label shape)} {e m m' : Nat} {closed' : Label shape → Bool}

theorem vertices_cons (hp : c.path = h :: rest) :
    c.vertices room = c.base room
      :: rest.scanl (Heights.stepOnto c.closed) ((c.base room).stepOnto c.closed h) := by
  rw [vertices, hp, List.scanl_cons]

/-- The base of the turned cell is the second vertex. -/
theorem base_turned (hs : IsSource c.closed p h) (hf : c.closed h = false) :
    (c.turned closed' h rest).base room = (c.base room).stepOnto c.closed h := by
  funext k
  have ht := hs.telescope hf k
  rw [Heights.stepOnto_apply hs]
  simp only [base, turned]
  omega

/-- The base of the unturned cell lies one grid step back. -/
theorem base_unturned (hs : IsSource closed' p h) (hf : closed' h = false) (k : Label shape) :
    (c.unturned closed' h rest).base room k = c.base room k + one (k = p) - one (k = h) := by
  have ht := hs.telescope hf k
  simp only [base, unturned]
  omega

/-- The vertices of the turned cell: the old ones but the first, and one new. -/
theorem vertices_turned (hp : c.path = h :: rest) (hs : IsSource c.closed p h)
    (hf : c.closed h = false)
    (hc : ∀ l ∈ rest, ∀ k, IsSource c.closed k l ↔ IsSource closed' k l) :
    (c.turned closed' h rest).vertices room
      = c.facet room 0 ++ [(c.vertex room c.path.length).stepOnto closed' h] := by
  have hlast : c.vertex room c.path.length
      = rest.foldl (Heights.stepOnto closed') ((c.base room).stepOnto c.closed h) := by
    rw [vertex, List.take_length, hp, List.foldl_cons, foldl_stepOnto_congr hc]
  rw [facet, vertices_cons hp, List.eraseIdx_cons_zero, vertices, base_turned hs hf, hlast,
    scanl_stepOnto_congr hc]
  exact List.scanl_append

theorem length_facet (hm : m ≤ c.path.length) :
    (c.facet room m).length = c.path.length := by
  have hl : (c.vertices room).length = _ := length_vertices
  rw [facet, List.length_eraseIdx_of_lt (by omega), hl]
  omega

theorem facet_turned (hp : c.path = h :: rest) (hs : IsSource c.closed p h)
    (hf : c.closed h = false)
    (hc : ∀ l ∈ rest, ∀ k, IsSource c.closed k l ↔ IsSource closed' k l) :
    (c.turned closed' h rest).facet room (rest.length + 1) = c.facet room 0 := by
  have hl : (c.facet room 0).length = rest.length + 1 := by
    rw [length_facet (Nat.zero_le _), hp, List.length_cons]
  rw [facet, vertices_turned hp hs hf hc, List.eraseIdx_append_of_length_le (by omega), hl]
  simp

/-- When the source of a label is closed, all other free labels keep theirs. -/
theorem isSource_shut_iff (hs : IsSource c.closed b h) (hf : c.closed h = false) (hbh : b ≠ h)
    (hl : c.closed l = false) (hlh : l ≠ h) (hlb : l ≠ b) (k : Label shape) :
    IsSource c.closed k l ↔ IsSource (shut c.closed b) k l := by
  have hr : Run (shut c.closed b) b h := by
    refine Run.head (shut_self _ _) (Run.of_opened (l := b) ?_)
    rw [opened_shut hs.1]; exact hs.2
  have hl' : shut c.closed b l = false := by rw [shut_of_ne _ hlb]; exact hl
  have hf' : shut c.closed b h = false := by rw [shut_of_ne _ hbh.symm]; exact hf
  have hiff := isSource_opened_iff (k := k) (shut_self c.closed b) hr hf' hl' hlh
  rwa [opened_shut hs.1] at hiff

/-- The vertices around an inner one. -/
theorem vertices_append_cons_cons (hp : c.path = A ++ p :: h :: B) :
    c.vertices room = A.scanl (Heights.stepOnto c.closed) (c.base room)
      ++ c.vertex room (A.length + 1)
        :: B.scanl (Heights.stepOnto c.closed) (c.vertex room (A.length + 1 + 1)) := by
  rw [vertices_append_cons hp, List.scanl_cons]
  have hp' : c.path = (A ++ [p]) ++ h :: B := by rw [hp]; simp
  have hv : c.vertex room ((A ++ [p]).length + 1) = _ := vertex_append_cons hp'
  rw [List.length_append, List.length_singleton] at hv
  rw [hv]

/-- The facet opposite to an inner vertex. -/
theorem facet_inner (hp : c.path = A ++ p :: h :: B) :
    c.facet room (A.length + 1) = A.scanl (Heights.stepOnto c.closed) (c.base room)
      ++ B.scanl (Heights.stepOnto c.closed) (c.vertex room (A.length + 1 + 1)) := by
  have hl : (A.scanl (Heights.stepOnto c.closed) (c.base room)).length = A.length + 1 :=
    List.length_scanl
  rw [facet, vertices_append_cons_cons hp, List.eraseIdx_append_of_length_le (by omega), hl,
    Nat.sub_self, List.eraseIdx_cons_zero]

/-- The two steps around an inner vertex. -/
theorem vertex_append_cons_cons (hp : c.path = A ++ p :: h :: B) :
    c.vertex room (A.length + 1 + 1)
      = ((c.vertex room A.length).stepOnto c.closed p).stepOnto c.closed h := by
  have hp' : c.path = (A ++ [p]) ++ h :: B := by rw [hp]; simp
  have hv : c.vertex room ((A ++ [p]).length + 1) = _ := vertex_append_cons hp'
  rw [List.length_append, List.length_singleton] at hv
  rw [hv, vertex_append_cons hp]

theorem vertex_swap (hp : c.path = A ++ p :: h :: B) :
    ({ c with path := A ++ h :: p :: B } : Cell shape).vertex room (A.length + 1 + 1)
      = c.vertex room (A.length + 1 + 1) := by
  rw [vertex_append_cons_cons hp,
    vertex_append_cons_cons (c := { c with path := A ++ h :: p :: B }) rfl, vertex_append hp,
    vertex_append (c := { c with path := A ++ h :: p :: B }) rfl]
  have hb : ({ c with path := A ++ h :: p :: B } : Cell shape).base room = c.base room := rfl
  funext k
  simp only [Heights.stepOnto, hb]
  omega

/-- The new vertex between the two steps. -/
theorem vertex_swapped (hp : c.path = A ++ p :: h :: B) :
    ({ c with path := A ++ h :: p :: B } : Cell shape).vertex room (A.length + 1)
      = (c.vertex room A.length).stepOnto c.closed h := by
  rw [vertex_append_cons (c := { c with path := A ++ h :: p :: B }) rfl,
    vertex_append (c := { c with path := A ++ h :: p :: B }) rfl, vertex_append hp]
  rfl

theorem facet_swap (hp : c.path = A ++ p :: h :: B) :
    ({ c with path := A ++ h :: p :: B } : Cell shape).facet room (A.length + 1)
      = c.facet room (A.length + 1) := by
  rw [facet_inner hp, facet_inner (c := { c with path := A ++ h :: p :: B }) rfl, vertex_swap hp]
  rfl

/-- The last vertex goes with the last step. -/
theorem facet_last (hp : c.path = A ++ [h]) :
    c.facet room (A.length + 1) = A.scanl (Heights.stepOnto c.closed) (c.base room) := by
  have hl : (A.scanl (Heights.stepOnto c.closed) (c.base room)).length = A.length + 1 :=
    List.length_scanl
  rw [facet, vertices_append_cons hp, List.eraseIdx_append_of_length_le (by omega), hl]
  simp

/-- When a label is opened, all free labels but the one that it leads to keep
their sources. -/
theorem isSource_iff_opened (hr : Run c.closed l h) (hf : c.closed h = false)
    (hp : c.closed p = false) (hph : p ≠ h) (k : Label shape) :
    IsSource c.closed k p ↔ IsSource (opened c.closed l) k p := by
  cases hl : c.closed l with
  | true => exact (isSource_opened_iff hl hr hf hp hph).symm
  | false => rw [opened, ← hl, Function.update_eq_self]

/-- **The smaller cell is a facet of the larger one.** -/
theorem Grows.facet_eq (hg : Grows c l e c') (hn : c.path.Nodup)
    (ho : ∀ x ∈ c.path, c.closed x = false)
    (hex : ∃ k, k.player = l.player ∧ c.closed k = false) :
    c'.facet room (e + 1) = c.vertices room := by
  obtain @⟨h, A, B, hp, hl, hr, hf, hB⟩ := hg
  obtain ⟨x, hxp, hx⟩ := hex
  obtain ⟨b, hb⟩ := Label.exists_isSource hx hxp.symm
  have hA : ∀ x ∈ A, h ≠ x → ∀ k, IsSource c.closed k x ↔ IsSource (opened c.closed l) k x :=
    fun x hxA hne => isSource_iff_opened hr hf
      (ho x (by rw [hp]; exact List.mem_append_left _ hxA)) hne.symm
  rcases hB with hB | ⟨rfl, hhA⟩
  · -- the closed label `l` enters before `h`, and two steps take the place of one
    obtain ⟨B', rfl⟩ : ∃ B', B = h :: B' := by
      cases B with
      | nil => cases hB
      | cons y B' => cases hB; exact ⟨B', rfl⟩
    have hn' := hn
    rw [hp, List.nodup_append] at hn'
    have hhA : h ∉ A := fun hm => hn'.2.2 h hm h List.mem_cons_self rfl
    have hhB : h ∉ B' := (List.nodup_cons.mp hn'.2.1).1
    have hlh : l ≠ h := fun hm => hl (by rw [hp, hm]; simp)
    have hlc : c.closed l = true := by
      rcases run_iff.mp hr with hm | ⟨hc, -⟩
      · exact absurd hm hlh
      · exact hc
    -- all other steps are the same in both cells
    have hcA : A.scanl (Heights.stepOnto c.closed) _ = _ := scanl_stepOnto_congr
      (fun x hx => hA x hx (fun hm => hhA (hm ▸ hx))) (c.base room)
    have hcA' : A.foldl (Heights.stepOnto c.closed) _ = _ := foldl_stepOnto_congr
      (fun x hx => hA x hx (fun hm => hhA (hm ▸ hx))) (c.base room)
    have hB' : ∀ x ∈ B', ∀ k, IsSource c.closed k x ↔ IsSource (opened c.closed l) k x :=
      fun x hx => isSource_iff_opened hr hf
        (ho x (by rw [hp]; exact List.mem_append_right _ (List.mem_cons_of_mem _ hx)))
        (fun hm => hhB (hm ▸ hx))
    have hcB := scanl_stepOnto_congr hB'
    rw [facet_inner (c := ⟨A ++ l :: h :: B', opened c.closed l, c.steps⟩) rfl,
      vertices_append_cons hp, hcA, hcB, vertex_append_cons hp, vertex_append hp, hcA',
      vertex_append_cons_cons (c := ⟨A ++ l :: h :: B', opened c.closed l, c.steps⟩) rfl,
      vertex_append (c := ⟨A ++ l :: h :: B', opened c.closed l, c.steps⟩) rfl]
    have hbase : (⟨A ++ l :: h :: B', opened c.closed l, c.steps⟩ : Cell shape).base room
        = c.base room := rfl
    -- a step onto `l` from `b` and one onto `h` from `l` make one onto `h` from `b`
    congr 2
    funext k
    rw [Heights.stepOnto_apply (hb.of_run hr), Heights.stepOnto_apply (isSource_opened hlc hb hr hf),
      Heights.stepOnto_apply hb.opened_self, hbase]
    dsimp only
    omega
  · -- the label enters at the end, and its vertex is the last
    rw [facet_last (c := ⟨A ++ [l], opened c.closed l, c.steps⟩) rfl, vertices, hp,
      List.append_nil, scanl_stepOnto_congr
        (fun x hx => hA x hx (fun hm => hhA (hm ▸ hx))) (c.base room)]
    rfl

end

end Cell

end SimplicialNash
