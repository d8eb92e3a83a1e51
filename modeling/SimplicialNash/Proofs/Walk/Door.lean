/-
  SimplicialNash.Proofs.Walk.Door
  ───────────────────────────────
  **A walk goes through doors, and each step can be taken back.**

  A door is a facet of a cell whose vertices carry exactly the labels on the
  cell's path.  The walk stands in front of it, about to enter the cell at the
  opposite vertex, or inside, about to leave through it.  `Door.Step` says what
  it does then:

      compare — inside a cell, from one door to the other
      grow    — into the larger cell that has the whole cell as a door
      shrink  — out of a cell whose door lies on the boundary, into the door
      turn, unturn, swap — through the door into the next cell

  Every step reversed is a step (`Step.reversed`), and from a door there is one
  step at most (`Next.unique`).  So two different doors never lead to the same
  one, and a walk that begins where there is no way back cannot come round to
  a door a second time.
-/
import Mathlib.Data.List.Perm.Basic
import SimplicialNash.Proofs.Walk.Beyond

namespace SimplicialNash

open Label

namespace Cell

variable {shape : Shape} {room : Label shape → Nat} {f : Heights shape → Label shape}
  {c c' d : Cell shape} {l l' : Label shape} {e e' i m m' : Nat}

/-! ## §1. Facets that carry the labels of the path -/

/-- The vertices but one carry each label of the path once. -/
def IsComplete (room : Label shape → Nat) (f : Heights shape → Label shape) (c : Cell shape)
    (i : Nat) : Prop := ((c.facet room i).map f).Perm c.path

theorem map_facet (i : Nat) :
    (c.facet room i).map f = ((c.vertices room).map f).eraseIdx i := by
  rw [facet, List.eraseIdx_map]

theorem getElem?_labels (hi : i ≤ c.path.length) :
    ((c.vertices room).map f)[i]? = some (f (c.vertex room i)) := by
  rw [List.getElem?_map, getElem?_vertices hi, Option.map_some]

/-- All labels of a cell with a complete facet. -/
theorem IsComplete.perm (hc : c.IsComplete room f i) (hi : i ≤ c.path.length) :
    ((c.vertices room).map f).Perm (f (c.vertex room i) :: c.path) := by
  have hlt : i < ((c.vertices room).map f).length := by
    rw [List.length_map, length_vertices]; omega
  have h1 := List.getElem_cons_eraseIdx_perm hlt
  have h2 : ((c.vertices room).map f)[i]? = _ := getElem?_labels hi
  rw [List.getElem?_eq_getElem hlt, Option.some.injEq] at h2
  rw [h2, ← map_facet] at h1
  exact h1.symm.trans (hc.cons _)

/-- Which vertex is left out does not matter between two with the same label. -/
theorem IsComplete.compare (hc : c.IsComplete room f i) (hi : i ≤ c.path.length)
    (hm : m ≤ c.path.length) (he : f (c.vertex room i) = f (c.vertex room m)) :
    c.IsComplete room f m := by
  have hmi : ((c.vertices room).map f)[m]? = ((c.vertices room).map f)[i]? := by
    rw [getElem?_labels hm, getElem?_labels hi, he]
  have h2 := List.Perm.eraseIdx_of_getElem?_eq hmi (List.Perm.refl _)
  rw [← map_facet, ← map_facet] at h2
  exact h2.trans hc

/-- The labels on the path are those of the other vertices. -/
theorem IsComplete.mem_path (hc : c.IsComplete room f i) (hm : m ≤ c.path.length) (hmi : m ≠ i) :
    f (c.vertex room m) ∈ c.path := by
  refine hc.mem_iff.mp ?_
  rw [map_facet]
  exact List.mem_eraseIdx_iff_getElem?.mpr ⟨m, hmi, getElem?_labels hm⟩

/-- The other vertices have different labels. -/
theorem IsComplete.eq_of_label_eq (hc : c.IsComplete room f i) (hv : c.IsValid room)
    (hm : m ≤ c.path.length) (hm' : m' ≤ c.path.length) (hmi : m ≠ i) (hmi' : m' ≠ i)
    (he : f (c.vertex room m) = f (c.vertex room m')) : m = m' := by
  have hn : (((c.vertices room).map f).eraseIdx i).Nodup := by
    rw [← map_facet]; exact hc.nodup_iff.mpr hv.nodup
  have hlt : ∀ {j}, j ≤ c.path.length → j < ((c.vertices room).map f).length := by
    intro j hj
    rw [List.length_map, length_vertices]; omega
  -- where a vertex stands in the facet
  have hat : ∀ {j}, j ≤ c.path.length → j ≠ i →
      (((c.vertices room).map f).eraseIdx i)[if j < i then j else j - 1]?
        = some (f (c.vertex room j)) := by
    intro j hj hji
    rw [← getElem?_labels hj, List.getElem?_eraseIdx]
    by_cases h : j < i
    · rw [if_pos h, if_pos h]
    · rw [if_neg h, if_neg (by omega), Nat.sub_add_cancel (by omega)]
  have h1 := hat hm hmi
  have h2 := hat hm' hmi'
  have hl := (List.getElem?_eq_some_iff.mp h1).1
  have e := (List.getElem?_inj hl hn).mp (h1.trans (he ▸ h2.symm))
  split_ifs at e <;> omega

/-- A label on the path is that of some other vertex. -/
theorem IsComplete.exists_of_mem (hc : c.IsComplete room f i) (hl : l ∈ c.path) :
    ∃ m ≤ c.path.length, m ≠ i ∧ f (c.vertex room m) = l := by
  have hmem := hc.mem_iff.mpr hl
  rw [map_facet] at hmem
  obtain ⟨m, hmi, hm⟩ := List.mem_eraseIdx_iff_getElem?.mp hmem
  have hlt := (List.getElem?_eq_some_iff.mp hm).1
  rw [List.length_map, length_vertices] at hlt
  refine ⟨m, by omega, hmi, ?_⟩
  rw [getElem?_labels (by omega)] at hm
  exact Option.some.inj hm

/-- The whole of the smaller cell is a complete facet of the larger one. -/
theorem IsComplete.grown (hc : c.IsComplete room f i) (hi : i ≤ c.path.length)
    (hg : c.Grows (f (c.vertex room i)) e c') (hv : c.IsValid room) :
    c'.IsComplete room f (e + 1) := by
  obtain ⟨x, hx, hxf⟩ := hv.exists_open (f (c.vertex room i))
  rw [IsComplete, hg.facet_eq hv.nodup hv.path_open ⟨x, hx, hxf⟩]
  exact (hc.perm hi).trans hg.perm.symm

/-- In the facet, the vertex with the label that has gone is opposite to the next
door. -/
theorem IsComplete.shrunk (hc : c'.IsComplete room f (e + 1)) (hg : c.Grows l e c')
    (hv : c.IsValid room) :
    ∃ i ≤ c.path.length, f (c.vertex room i) = l ∧ c.IsComplete room f i := by
  obtain ⟨x, hx, hxf⟩ := hv.exists_open l
  rw [IsComplete, hg.facet_eq hv.nodup hv.path_open ⟨x, hx, hxf⟩] at hc
  have hc := hc.trans hg.perm
  obtain ⟨i, hi⟩ := List.mem_iff_getElem?.mp (hc.mem_iff.mpr List.mem_cons_self)
  have hlt := (List.getElem?_eq_some_iff.mp hi).1
  rw [List.length_map, length_vertices] at hlt
  have hi' := hi
  rw [getElem?_labels (by omega)] at hi'
  refine ⟨i, by omega, Option.some.inj hi', ?_⟩
  have h0 : ((l :: c.path : List (Label shape)))[0]? = some l := rfl
  have hp := List.Perm.eraseIdx_of_getElem?_eq (hi.trans h0.symm) hc
  rw [IsComplete, map_facet]
  exact hp

/-! ## §2. What lies beyond a facet -/

theorem Swaps.symm (hs : c.Swaps m c') : c'.Swaps m c := by
  obtain @⟨p, h, A, B, hp⟩ := hs
  have hs := Swaps.intro (c := { c with path := A ++ h :: p :: B }) rfl
  rwa [← hp] at hs

/-- Where a label enters. -/
theorem Grows.entry_eq (hg : c.Grows l e c') (hn : c.path.Nodup) :
    ∃ h, Run c.closed l h ∧ c.closed h = false ∧ e = c.path.idxOf h := by
  obtain @⟨h, A, B, hp, hl, hr, hf, hB⟩ := hg
  refine ⟨h, hr, hf, ?_⟩
  rw [hp] at hn ⊢
  rcases hB with hB | ⟨rfl, hB⟩
  · obtain ⟨B', rfl⟩ := List.head?_eq_some_iff.mp hB
    rw [List.nodup_append] at hn
    rw [List.idxOf_append_of_notMem fun hm => hn.2.2 h hm h List.mem_cons_self rfl]
    simp
  · rw [List.append_nil, List.idxOf_eq_length hB]

/-- A label enters a cell in one way only. -/
theorem Grows.unique (h : c.Grows l e c') (h' : c.Grows l e' d) (hn : c.path.Nodup) :
    e = e' ∧ c' = d := by
  obtain ⟨x, hx, hxf, hex⟩ := h.entry_eq hn
  obtain ⟨y, hy, hyf, hey⟩ := h'.entry_eq hn
  have he : e = e' := by rw [hex, hey, hx.unique hy hxf hyf]
  refine ⟨he, ?_⟩
  obtain @⟨_, A, B, hp, -, -, -, -⟩ := h
  obtain @⟨_, A', B', hp', -, -, -, -⟩ := h'
  obtain ⟨rfl, rfl⟩ := List.append_inj (hp.symm.trans hp') he
  rfl

/-- A cell is reached by one label only at an entry, and from one cell. -/
theorem Grows.source_unique (h : c.Grows l e c') (h' : d.Grows l' e c') (hc : c.IsValid room)
    (hd : d.IsValid room) : l = l' ∧ c = d := by
  have hst : c.steps = d.steps := h.steps_eq.symm.trans h'.steps_eq
  have hcl : opened c.closed l = opened d.closed l' := h.closed_eq.symm.trans h'.closed_eq
  have hba : c.base room = d.base room := (h.base_eq room).symm.trans (h'.base_eq room)
  have hcn := h.not_mem
  have hdn := h'.not_mem
  have hpath : l = l' ∧ c.path = d.path := by
    -- both paths are what is left when the entry goes
    obtain @⟨_, A, B, hp, -, -, -, -⟩ := h
    generalize hx : (⟨A ++ l :: B, opened c.closed l, c.steps⟩ : Cell shape) = x at h'
    generalize hA : A.length = n at h'
    obtain @⟨_, A', B', hp', -, -, -, -⟩ := h'
    have hpx := congrArg path hx
    obtain ⟨rfl, hlB⟩ := List.append_inj hpx hA
    obtain ⟨rfl, rfl⟩ := List.cons.inj hlB
    exact ⟨rfl, hp.trans hp'.symm⟩
  obtain ⟨rfl, hpath⟩ := hpath
  refine ⟨rfl, Cell.ext hpath ?_ hst⟩
  funext k
  by_cases hk : k = l
  · -- whether the label was closed is seen from the base vertex
    subst hk
    rw [Bool.eq_iff_iff, hc.closed_iff hcn, hd.closed_iff hdn, hba]
  · rw [← opened_of_ne c.closed hk, hcl, opened_of_ne _ hk]

/-- Beyond the facet opposite to the base lies one cell only. -/
theorem Turns.unique (h : c.Turns c') (h' : c.Turns d) (hc : c.IsValid room)
    (hc' : c'.IsValid room) (hd : d.IsValid room) : c' = d := by
  -- the source is closed beyond the facet exactly if it is used up at the last vertex
  have key : ∀ {b x : Label shape} {rest : List (Label shape)}, c.path = x :: rest →
      IsSource c.closed b x → (c.turned c.closed x rest).IsValid room →
      (c.turned (shut c.closed b) x rest).IsValid room → False := by
    intro b x rest hp hs h1 h2
    have hx : x ∈ c.path := by rw [hp]; exact List.mem_cons_self
    have hxo := hc.path_open x hx
    have hbx : b ≠ x := hc.ne_of_isSource hs hx
    have hb := h2.base_closed b (shut_self _ _)
    rw [base_turned hs hxo, Heights.stepOnto_apply hs, one_of_not hbx, one_of rfl] at hb
    have hbp : b ∉ c.path := by
      intro hm
      have hm' : b ∈ rest ++ [x] := (List.perm_append_singleton x rest).mem_iff.mpr (hp ▸ hm)
      have := h2.path_open b hm'
      exact absurd (this.symm.trans (shut_self _ _)) (by decide)
    have hl := h1.vertex_nonneg (rest.length + 1) b
    rw [vertex_turned hp hs hxo fun _ _ _ => Iff.rfl, Heights.stepOnto_apply hs, hc.vertex_apply,
      List.take_length, one_of_not hbp, one_of ⟨x, hx, hs⟩, one_of_not hbx, one_of rfl] at hl
    omega
  cases h with
  | plain hp =>
    cases h' with
    | plain hp' =>
      obtain ⟨rfl, rfl⟩ := List.cons.inj (hp.symm.trans hp')
      rfl
    | close hp' hs' =>
      obtain ⟨rfl, rfl⟩ := List.cons.inj (hp.symm.trans hp')
      exact (key hp hs' hc' hd).elim
  | close hp hs =>
    cases h' with
    | plain hp' =>
      obtain ⟨rfl, rfl⟩ := List.cons.inj (hp.symm.trans hp')
      exact (key hp hs hd hc').elim
    | close hp' hs' =>
      obtain ⟨rfl, rfl⟩ := List.cons.inj (hp.symm.trans hp')
      rw [hs.unique hs']

/-- **What the cell beyond the facet shows of the way there.**  Its path ends with
the label that was the first, the ledger has counted one along the run to it,
and if a label has been closed, the ledger begins to count right after it. -/
theorem Turns.inversion (h : c.Turns c') (hc : c.IsValid room) (hc' : c'.IsValid room) :
    ∃ x rest, c.path = x :: rest ∧ c'.path = rest ++ [x]
      ∧ (∀ k, c'.steps k = c.steps k + one (Run c.closed k x))
      ∧ (c'.closed = c.closed ∨ ∃ b, c.closed = opened c'.closed b ∧ Run c'.closed b x
          ∧ c'.steps b = 0 ∧ 0 < c'.steps b.next) := by
  cases h with
  | @plain x rest hp => exact ⟨x, rest, hp, rfl, fun _ => rfl, Or.inl rfl⟩
  | @close b x rest hp hs =>
    have hx : x ∈ c.path := by rw [hp]; exact List.mem_cons_self
    have hbx : b ≠ x := hc.ne_of_isSource hs hx
    have hbp : b ∉ c.path := by
      intro hm
      have hm' : b ∈ rest ++ [x] := (List.perm_append_singleton x rest).mem_iff.mpr (hp ▸ hm)
      exact absurd ((hc'.path_open b hm').symm.trans (shut_self _ _)) (by decide)
    have hr : ¬ Run c.closed b x := by
      intro hr
      rcases run_iff.mp hr with e | ⟨e, -⟩
      · exact hbx e
      · rw [hs.1] at e; cases e
    -- `b` is free before, so nothing has been counted for it, and the run begins after it
    refine ⟨x, rest, hp, rfl, fun _ => rfl, Or.inr ⟨b, (opened_shut hs.1).symm, ?_, ?_, ?_⟩⟩
    · refine Run.head (shut_self _ _) (Run.of_opened (l := b) ?_)
      rw [turned, opened_shut hs.1]; exact hs.2
    · simp only [turned]
      rw [one_of_not hr, hc.steps_free b ⟨hbp, hs.1⟩]
      rfl
    · have := hc.steps_nonneg b.next
      simp only [turned]
      rw [one_of hs.2]
      omega

/-- Beyond the facet opposite to the last vertex lies one cell only. -/
theorem Turns.source_unique (h : c.Turns c') (h' : d.Turns c') (hc : c.IsValid room)
    (hd : d.IsValid room) (hc' : c'.IsValid room) : c = d := by
  obtain ⟨x, rest, hp, hpx, hst, hcl⟩ := h.inversion hc hc'
  obtain ⟨y, rest', hp', hpy, hst', hcl'⟩ := h'.inversion hd hc'
  obtain ⟨rfl, e⟩ := List.append_inj' (hpx.symm.trans hpy) rfl
  cases e
  -- a run from a label for which nothing is counted has not been counted
  have hzero : ∀ {z : Cell shape} {b : Label shape}, z.IsValid room →
      (∀ k, c'.steps k = z.steps k + one (Run z.closed k x)) → c'.closed = z.closed →
      Run c'.closed b x → c'.steps b = 0 → False := by
    intro z b hz hst e hr h0
    have h1 := hz.steps_nonneg b
    have h2 := hst b
    rw [← e, one_of hr] at h2
    omega
  have hclosed : c.closed = d.closed := by
    rcases hcl with e | ⟨b, e, hr, h0, h1⟩ <;> rcases hcl' with e' | ⟨b', e', hr', h0', h1'⟩
    · exact e.symm.trans e'
    · exact (hzero hc hst e hr' h0').elim
    · exact (hzero hd hst' e' hr h0).elim
    · by_cases hb : b = b'
      · rw [e, e', hb]
      · -- of two runs to one label, one contains the other and is counted with it
        rcases hr.total hr' with hbb | hbb
        · have := hc'.steps_mono ((run_iff.mp hbb).resolve_left hb).2
          omega
        · have := hc'.steps_mono ((run_iff.mp hbb).resolve_left (Ne.symm hb)).2
          omega
  refine Cell.ext (hp.trans hp'.symm) hclosed ?_
  funext k
  have h1 := hst k
  have h2 := hst' k
  rw [hclosed] at h1
  omega

/-- The cell beyond is the turned one, and the labels that stay where they are keep
their sources. -/
theorem Turns.exists_turned (h : c.Turns c') (hc : c.IsValid room) (hc' : c'.IsValid room) :
    ∃ b x rest, c.path = x :: rest ∧ IsSource c.closed b x ∧ c' = c.turned c'.closed x rest
      ∧ ∀ l ∈ rest, ∀ k, IsSource c.closed k l ↔ IsSource c'.closed k l := by
  cases h with
  | @plain x rest hp =>
    obtain ⟨b, hs⟩ := hc.exists_isSource x
    exact ⟨b, x, rest, hp, hs, rfl, fun _ _ _ => Iff.rfl⟩
  | @close b x rest hp hs =>
    refine ⟨b, x, rest, hp, hs, rfl, fun l hl => ?_⟩
    have hx : x ∈ c.path := by rw [hp]; exact List.mem_cons_self
    have hn := hc.nodup
    rw [hp, List.nodup_cons] at hn
    have hlb : l ≠ b := by
      rintro rfl
      exact absurd ((hc'.path_open l (List.mem_append_left _ hl)).symm.trans (shut_self _ _))
        (by decide)
    exact isSource_shut_iff hs (hc.path_open x hx) (hc.ne_of_isSource hs hx)
      (hc.path_open l (by rw [hp]; exact List.mem_cons_of_mem _ hl))
      (fun e => hn.1 (e ▸ hl)) hlb

/-- The cell beyond has the facet in common with the one that is left. -/
theorem Turns.facet_eq (h : c.Turns c') (hc : c.IsValid room) (hc' : c'.IsValid room) :
    c'.facet room c'.path.length = c.facet room 0 := by
  obtain ⟨b, x, rest, hp, hs, e, hkeep⟩ := h.exists_turned hc hc'
  have hxo := hc.path_open x (by rw [hp]; exact List.mem_cons_self)
  have hlen : c'.path.length = rest.length + 1 := by rw [e]; simp [turned]
  rw [hlen, e]
  exact facet_turned hp hs hxo hkeep

/-- Its last vertex lies one grid step beyond. -/
theorem Turns.vertex_last {x : Label shape} {rest : List (Label shape)} (h : c.Turns c')
    (hc : c.IsValid room) (hc' : c'.IsValid room) (hp : c.path = x :: rest) :
    c'.vertex room c'.path.length = (c.vertex room c.path.length).stepOnto c'.closed x := by
  obtain ⟨b, y, rest', hp', hs, e, hkeep⟩ := h.exists_turned hc hc'
  obtain ⟨rfl, rfl⟩ := List.cons.inj (hp.symm.trans hp')
  have hxo := hc.path_open x (by rw [hp]; exact List.mem_cons_self)
  have hlen : c'.path.length = rest.length + 1 := by rw [e]; simp [turned]
  have hv : (c.turned c'.closed x rest).vertex room (rest.length + 1) = _ :=
    vertex_turned hp hs hxo hkeep
  rwa [← e, ← hlen] at hv

theorem Turns.perm (h : c.Turns c') : c'.path.Perm c.path := by
  cases h with
  | plain hp => exact hp ▸ List.perm_append_singleton _ _
  | close hp _ => exact hp ▸ List.perm_append_singleton _ _

/-- From both sides the facet carries the same labels. -/
theorem Turns.isComplete_iff (h : c.Turns c') (hc : c.IsValid room) (hc' : c'.IsValid room) :
    c'.IsComplete room f c'.path.length ↔ c.IsComplete room f 0 := by
  rw [IsComplete, IsComplete, h.facet_eq hc hc']
  exact h.perm.congr_right _

theorem Turns.path_pos (h : c.Turns c') : 0 < c.path.length := by
  cases h with
  | plain hp => rw [hp]; exact Nat.succ_pos _
  | close hp _ => rw [hp]; exact Nat.succ_pos _

theorem Swaps.isComplete_iff (h : c.Swaps m c') :
    c'.IsComplete room f m ↔ c.IsComplete room f m := by
  obtain @⟨p, x, A, B, hp⟩ := h
  rw [IsComplete, IsComplete, facet_swap hp]
  have hperm : (A ++ x :: p :: B).Perm c.path := hp ▸ (List.Perm.swap p x B).append_left A
  exact hperm.congr_right _

theorem Swaps.lt_length (h : c.Swaps m c') : 0 < m ∧ m < c.path.length := by
  obtain @⟨p, x, A, B, hp⟩ := h
  rw [hp]
  simp

/-- Beyond the facet opposite to an inner vertex lies one cell only. -/
theorem Swaps.unique (h : c.Swaps m c') (h' : c.Swaps m d) : c' = d := by
  obtain @⟨p, x, A, B, hp⟩ := h
  generalize hA : A.length + 1 = n at h'
  obtain @⟨p', x', A', B', hp'⟩ := h'
  obtain ⟨rfl, e⟩ := List.append_inj (hp.symm.trans hp') (by omega)
  cases e
  rfl

/-- A door that lies on the boundary, opposite to the last vertex or opposite to an
inner one: nothing lies beyond it. -/
theorem Grows.not_turns (h : c.Grows l e c') (h' : d.Turns c') (hc : c.IsValid room)
    (hd : d.IsValid room) (hc' : c'.IsValid room) (he : e + 1 = c'.path.length) : False := by
  obtain ⟨x, rest, -, hpx, hst, -⟩ := h'.inversion hd hc'
  have hsteps := h.steps_eq
  obtain @⟨y, A, B, hp, hl, hr, hf, hB⟩ := h
  have hB0 : B = [] := by
    rw [List.length_append, List.length_cons] at he
    exact List.length_eq_zero_iff.mp (by omega)
  subst hB0
  obtain ⟨-, e⟩ := List.append_inj' (hpx.symm.trans rfl) rfl
  cases e
  have hyA : y ∉ A := hB.elim (fun h => by cases h) And.right
  have h0 := hc.steps_eq_zero hr (hc.steps_free y ⟨by rw [hp, List.append_nil]; exact hyA, hf⟩)
  have h1 := hd.steps_nonneg l
  have h2 := hst l
  rw [one_of (Run.refl _ _), congrFun hsteps l] at h2
  omega

theorem Grows.not_swaps (h : c.Grows l e c') (h' : c'.Swaps (e + 1) d) (hc : c.IsValid room)
    (hc' : c'.IsValid room) (hd : d.IsValid room) : False := by
  obtain ⟨s, hs⟩ := hc.exists_isSource l
  have hcl := h.closed_eq
  have hba := h.base_eq room
  obtain @⟨y, A, B, hp, hl, hr, hf, hB⟩ := h
  generalize hx : (⟨A ++ l :: B, opened c.closed l, c.steps⟩ : Cell shape) = x at h' hc' hcl hba
  have hpx := congrArg path hx
  generalize hA : A.length + 1 = n at h'
  obtain @⟨p, z, A', B', hp'⟩ := h'
  obtain ⟨rfl, e⟩ := List.append_inj (hpx.trans hp') (by omega)
  obtain ⟨rfl, rfl⟩ := List.cons.inj e
  have hzy : z = y := by
    rcases hB with hB | ⟨hB, -⟩
    · exact Option.some.inj hB
    · cases hB
  subst hzy
  have hlz : l ≠ z := fun e => hl (by rw [hp, e]; simp)
  have hlc : c.closed l = true := ((run_iff.mp hr).resolve_left hlz).1
  have hsz : IsSource x.closed l z := by rw [hcl]; exact isSource_opened hlc hs hr hf
  have hzo : x.closed z = false := hc'.path_open z (by rw [hp']; simp)
  have hn := hc'.nodup
  rw [hp', List.nodup_append] at hn
  -- the swapped cell takes its first step out of the label that is used up
  have h1 := hd.vertex_nonneg (A.length + 1) l
  have hvA : ({ x with path := A ++ z :: l :: B' } : Cell shape).vertex room A.length
      = x.vertex room A.length := by
    rw [vertex_append (c := { x with path := A ++ z :: l :: B' }) rfl, vertex_append hp']; rfl
  have hnone : ¬ ∃ w ∈ A, IsSource x.closed l w := by
    rintro ⟨w, hw, hws⟩
    have hwo := hc'.path_open w (by rw [hp']; exact List.mem_append_left _ hw)
    exact hn.2.2 w hw z (by simp) (hws.target_unique hsz hwo hzo)
  have hlA : l ∉ A := fun hm => hn.2.2 l hm l List.mem_cons_self rfl
  have h0 := hc.base_closed l hlc
  rw [vertex_append_cons (c := { x with path := A ++ z :: l :: B' }) rfl, hvA,
    Heights.stepOnto_apply (show IsSource x.closed l z from hsz), hc'.vertex_apply, hp', List.take_left,
    one_of_not hnone, one_of_not hlA, one_of_not hlz, one_of rfl, hba, h0] at h1
  omega

end Cell

/-! ## §3. Doors and steps -/

/-- A walk at a facet of a cell: about to enter the cell at the opposite vertex,
or inside and about to leave through the facet. -/
@[ext] structure Door (shape : Shape) where
  entering : Bool
  cell : Cell shape
  /-- The number of the opposite vertex. -/
  vertex : Nat

namespace Door

variable {shape : Shape} {room : Label shape → Nat} {f : Heights shape → Label shape}
  {a a' b b' : Door shape}

/-- The same door, gone through the other way. -/
def reversed (a : Door shape) : Door shape := { a with entering := !a.entering }

@[simp] theorem reversed_reversed (a : Door shape) : a.reversed.reversed = a := by
  simp [reversed]

/-- The door of a valid cell whose vertices carry the labels of the path. -/
structure IsValid (room : Label shape → Nat) (f : Heights shape → Label shape) (a : Door shape) :
    Prop where
  cell : a.cell.IsValid room
  vertex_le : a.vertex ≤ a.cell.path.length
  complete : a.cell.IsComplete room f a.vertex

/-- One step of a walk. -/
inductive Step (room : Label shape → Nat) (f : Heights shape → Label shape) :
    Door shape → Door shape → Prop
  | compare {c : Cell shape} {i m : Nat} (hne : i ≠ m)
      (he : f (c.vertex room i) = f (c.vertex room m)) : Step room f ⟨true, c, i⟩ ⟨false, c, m⟩
  | grow {c c' : Cell shape} {i e : Nat} (hg : c.Grows (f (c.vertex room i)) e c') :
      Step room f ⟨true, c, i⟩ ⟨true, c', e + 1⟩
  | shrink {c c' : Cell shape} {i e : Nat} (hg : c.Grows (f (c.vertex room i)) e c') :
      Step room f ⟨false, c', e + 1⟩ ⟨false, c, i⟩
  | turn {c c' : Cell shape} (ht : c.Turns c') :
      Step room f ⟨false, c, 0⟩ ⟨true, c', c'.path.length⟩
  | unturn {c c' : Cell shape} {m : Nat} (ht : c.Turns c') (hm : m = c'.path.length) :
      Step room f ⟨false, c', m⟩ ⟨true, c, 0⟩
  | swap {c c' : Cell shape} {m : Nat} (hs : c.Swaps m c') :
      Step room f ⟨false, c, m⟩ ⟨true, c', m⟩

/-- A step between valid doors. -/
structure Next (room : Label shape → Nat) (f : Heights shape → Label shape) (a b : Door shape) :
    Prop where
  source : a.IsValid room f
  target : b.IsValid room f
  step : Step room f a b

/-! ## §4. Every step can be taken back -/

theorem IsValid.reversed (h : a.IsValid room f) : a.reversed.IsValid room f :=
  ⟨h.cell, h.vertex_le, h.complete⟩

/-- **A step reversed is a step.** -/
theorem Step.reversed (h : Step room f a b) : Step room f b.reversed a.reversed := by
  cases h with
  | compare hne he => exact Step.compare hne.symm he.symm
  | grow hg => exact Step.shrink hg
  | shrink hg => exact Step.grow hg
  | turn ht => exact Step.unturn ht rfl
  | unturn ht hm => subst hm; exact Step.turn ht
  | swap hs => exact Step.swap hs.symm

theorem Next.reversed (h : Next room f a b) : Next room f b.reversed a.reversed :=
  ⟨h.target.reversed, h.source.reversed, h.step.reversed⟩

/-! ## §5. There is one step at most -/

/-- Into a cell: its other vertex with the label, or the larger cell. -/
theorem Next.unique_of_entering (h : Next room f a b) (h' : Next room f a b')
    (he : a.entering = true) : b = b' := by
  obtain ⟨ha, hb, hs⟩ := h
  obtain ⟨-, hb', hs'⟩ := h'
  cases hs with
  | @compare c i m hne e =>
    cases hs' with
    | @compare _ _ m' hne' e' =>
      have hm : m = m' := ha.complete.eq_of_label_eq ha.cell hb.vertex_le hb'.vertex_le
        (Ne.symm hne) (Ne.symm hne') (e.symm.trans e')
      rw [hm]
    | grow hg =>
      -- a label that another vertex has is on the path already
      exact (hg.not_mem (e ▸ ha.complete.mem_path hb.vertex_le (Ne.symm hne))).elim
  | grow hg =>
    cases hs' with
    | compare hne' e' =>
      exact (hg.not_mem (e' ▸ ha.complete.mem_path hb'.vertex_le (Ne.symm hne'))).elim
    | grow hg' =>
      obtain ⟨rfl, rfl⟩ := hg.unique hg' ha.cell.nodup
      rfl
  | shrink => cases he
  | turn => cases he
  | unturn => cases he
  | swap => cases he

/-- Out of a cell: the cell beyond the door, or the door itself. -/
theorem Next.unique_of_leaving (h : Next room f a b) (h' : Next room f a b')
    (he : a.entering = false) : b = b' := by
  obtain ⟨ha, hb, hs⟩ := h
  obtain ⟨-, hb', hs'⟩ := h'
  cases hs with
  | compare => cases he
  | grow => cases he
  | @shrink c _ i _ hg =>
    cases hs' with
    | @shrink _ _ i' _ hg' =>
      have hl := hg.not_mem
      obtain ⟨hf, rfl⟩ := hg.source_unique hg' hb.cell hb'.cell
      -- the label that has left is not on the path, so one vertex alone has it
      have hi : i = i' := by
        by_contra hne
        exact hl (hf ▸ hb.complete.mem_path hb'.vertex_le (Ne.symm hne))
      rw [hi]
    | unturn ht hm => exact (hg.not_turns ht hb.cell hb'.cell ha.cell hm).elim
    | swap hs => exact (hg.not_swaps hs hb.cell ha.cell hb'.cell).elim
  | turn ht =>
    cases hs' with
    | turn ht' => rw [ht.unique ht' ha.cell hb.cell hb'.cell]
    | unturn _ hm => exact absurd ht.path_pos (by omega)
    | swap hs => exact absurd hs.lt_length.1 (by omega)
  | unturn ht hm =>
    cases hs' with
    | shrink hg => exact (hg.not_turns ht hb'.cell hb.cell ha.cell hm).elim
    | turn ht' => exact absurd ht'.path_pos (by omega)
    | unturn ht' _ => rw [ht.source_unique ht' hb.cell hb'.cell ha.cell]
    | swap hs => exact absurd hs.lt_length.2 (by omega)
  | swap hs =>
    cases hs' with
    | shrink hg => exact (hg.not_swaps hs hb'.cell ha.cell hb.cell).elim
    | turn => exact absurd hs.lt_length.1 (by omega)
    | unturn _ hm => exact absurd hs.lt_length.2 (by omega)
    | swap hs' => rw [hs.unique hs']

/-- **From a door there is one step at most.** -/
theorem Next.unique (h : Next room f a b) (h' : Next room f a b') : b = b' := by
  cases he : a.entering with
  | true => exact h.unique_of_entering h' he
  | false => exact h.unique_of_leaving h' he

/-- **To a door there is one step at most.** -/
theorem Next.source_unique (h : Next room f a b) (h' : Next room f a' b) : a = a' := by
  have e := h.reversed.unique h'.reversed
  rw [← a.reversed_reversed, e, reversed_reversed]

end Door

end SimplicialNash
