/-
  SimplicialNash.Proofs.Walk.Beyond
  ─────────────────────────────────
  The cell beyond a facet is valid.

  One lemma for each way that a walk can take out of a valid cell.  The
  hypotheses are what the walk looks at before it goes: whether a source is
  used up, and what the ledger has counted.

      turn, close      — across the facet opposite to the base
      swap             — across the facet opposite to an inner vertex
      unturn, unclose  — across the facet opposite to the last vertex
      grown            — into a larger cell
      shrunk           — into the facet itself, where nothing lies beyond it

  Four of them come from two lemmas (`IsValid.turned`, `IsValid.unturned`) that
  leave open which labels are closed on the other side.
-/
import Mathlib.Data.List.InsertIdx
import SimplicialNash.Proofs.Walk.Facet

namespace SimplicialNash

open Label

namespace Cell

variable {shape : Shape} {room : Label shape → Nat} {c c' : Cell shape}
  {b f h k l p w : Label shape} {A B rest : List (Label shape)} {e m m' : Nat}
  {closed' : Label shape → Bool}

/-! ## §1. Vertices on the other side -/

theorem mem_vertices_of_mem_facet {y : Heights shape} (h : y ∈ c.facet room m) :
    y ∈ c.vertices room := List.mem_of_mem_eraseIdx h

/-- A vertex is the one with a given number, or it lies in the opposite facet. -/
theorem eq_vertex_or_mem_facet {y : Heights shape} (hm : m ≤ c.path.length)
    (h : y ∈ c.vertices room) : y = c.vertex room m ∨ y ∈ c.facet room m := by
  obtain ⟨i, hi⟩ := List.mem_iff_getElem?.mp h
  by_cases e : i = m
  · subst e
    rw [getElem?_vertices hm] at hi
    exact Or.inl (Option.some.inj hi).symm
  · exact Or.inr (List.mem_eraseIdx_iff_getElem?.mpr ⟨i, e, hi⟩)

/-- With a facet in common, only the vertex opposite to it can be outside the
grid. -/
theorem nonneg_of_facet_eq {i : Nat} (hv : c.IsValid room) (hi : i ≤ c'.path.length)
    (hf : c'.facet room i = c.facet room m) (hn : ∀ k, 0 ≤ c'.vertex room i k) :
    ∀ y ∈ c'.vertices room, ∀ k, 0 ≤ y k := by
  intro y hy
  rcases eq_vertex_or_mem_facet hi hy with rfl | hy
  · exact hn
  · exact hv.nonneg y (mem_vertices_of_mem_facet (hf ▸ hy))

/-- The last vertex of a turned cell. -/
theorem vertex_turned (hp : c.path = h :: rest) (hs : IsSource c.closed p h)
    (hf : c.closed h = false)
    (hc : ∀ l ∈ rest, ∀ k, IsSource c.closed k l ↔ IsSource closed' k l) :
    (c.turned closed' h rest).vertex room (rest.length + 1)
      = (c.vertex room c.path.length).stepOnto closed' h := by
  have hl : (c.facet room 0).length = rest.length + 1 := by
    rw [length_facet (Nat.zero_le _), hp, List.length_cons]
  have hv : ((c.turned closed' h rest).vertices room)[rest.length + 1]? = _ :=
    getElem?_vertices (by simp [turned])
  rw [vertices_turned hp hs hf hc, List.getElem?_append_right (by omega), hl] at hv
  simpa using hv.symm

/-- The source of a free label is not used up at the last vertex: no step takes from it. -/
theorem IsValid.last_source_pos (hv : c.IsValid room) (hf : c.IsFree f)
    (hs : IsSource c.closed b f) : 0 < c.vertex room c.path.length b := by
  have hnone : ¬ ∃ x ∈ c.path, IsSource c.closed b x := by
    rintro ⟨x, hx, hxs⟩
    exact hf.1 (hxs.target_unique hs (hv.path_open x hx) hf.2 ▸ hx)
  rw [hv.vertex_apply, List.take_length, one_of_not hnone]
  by_cases hb : b ∈ c.path
  · have := hv.base_nonneg b
    rw [one_of hb]
    omega
  · have := hv.base_free_pos ⟨hb, hs.1⟩
    rw [one_of_not hb]
    omega

/-! ## §2. Across the facet opposite to the base -/

/-- The turned cell is valid, whatever is closed there in addition. -/
theorem IsValid.turned (hv : c.IsValid room) (hp : c.path = h :: rest)
    (hs : IsSource c.closed b h)
    (ho : ∀ l ∈ c.path, closed' l = false)
    (hex : ∀ l : Label shape, ∃ k, k.player = l.player ∧ k ∉ c.path ∧ closed' k = false)
    (hsub : ∀ k, c.closed k = true → closed' k = true)
    (hcl : ∀ k, closed' k = true → c.closed k = true ∨ (k = b ∧ c.base room b = 1))
    (hc : ∀ l ∈ rest, ∀ k, IsSource c.closed k l ↔ IsSource closed' k l)
    (hn : ∀ k, 0 ≤ (c.vertex room c.path.length).stepOnto closed' h k) :
    (c.turned closed' h rest).IsValid room := by
  have hh : h ∈ c.path := by rw [hp]; exact List.mem_cons_self
  have hf : c.closed h = false := hv.path_open h hh
  have hbh : b ≠ h := hv.ne_of_isSource hs hh
  have hperm : (rest ++ [h]).Perm c.path := hp ▸ List.perm_append_singleton h rest
  have hopen : ∀ k, closed' k = false → c.closed k = false := by
    intro k hk
    cases hck : c.closed k with
    | false => rfl
    | true => rw [hsub k hck] at hk; cases hk
  have hfree : ∀ k, (c.turned closed' h rest).IsFree k → c.IsFree k :=
    fun k hk => ⟨fun hm => hk.1 (hperm.mem_iff.mpr hm), hopen k hk.2⟩
  refine {
    nodup := hperm.nodup_iff.mpr hv.nodup
    path_open := fun l hl => ho l (hperm.mem_iff.mp hl)
    exists_free := ?exists_free
    steps_nonneg := ?steps_nonneg
    steps_free := ?steps_free
    base_closed := ?base_closed
    room_free := fun k hk => hv.room_free k (hfree k hk)
    nonneg := ?nonneg }
  case exists_free =>
    intro l
    obtain ⟨k, hk, hkp, hkf⟩ := hex l
    exact ⟨k, hk, fun hm => hkp (hperm.mem_iff.mp hm), hkf⟩
  case steps_nonneg =>
    intro k
    have h1 := hv.steps_nonneg k
    have h2 := one_nonneg (Run c.closed k h)
    simp only [Cell.turned]
    omega
  case steps_free =>
    intro k hk
    have hkf := hfree k hk
    -- a run that leads to the path begins on it or at a closed label
    have hr : ¬ Run c.closed k h := by
      intro hr
      rcases run_iff.mp hr with rfl | ⟨hck, -⟩
      · exact hkf.1 hh
      · rw [hkf.2] at hck; cases hck
    have h1 := hv.steps_free k hkf
    simp only [Cell.turned]
    rw [one_of_not hr, h1]
    rfl
  case base_closed =>
    intro k hk
    have hb : (c.turned closed' h rest).base room k = _ := congrFun (base_turned hs hf) k
    have hk' : closed' k = true := hk
    have hkh : k ≠ h := fun e => by rw [e, ho h hh] at hk'; cases hk'
    rw [Heights.stepOnto_apply hs, one_of_not hkh] at hb
    rcases hcl k hk with hck | ⟨rfl, h1⟩
    · have hkb : k ≠ b := fun e => by rw [e, hs.1] at hck; cases hck
      rw [one_of_not hkb, hv.base_closed k hck] at hb
      exact hb
    · -- the source of the first step gives its last mesh away
      rw [one_of rfl, h1] at hb
      exact hb
  case nonneg =>
    refine nonneg_of_facet_eq (i := rest.length + 1) hv (by simp [Cell.turned])
      (facet_turned hp hs hf hc) ?_
    rw [vertex_turned hp hs hf hc]
    exact hn

/-- **Turning**: the source of the first step is not used up at the last vertex. -/
theorem IsValid.turn (hv : c.IsValid room) (hp : c.path = h :: rest) (hs : IsSource c.closed b h)
    (hb : 0 < c.vertex room c.path.length b) : (c.turned c.closed h rest).IsValid room := by
  exact hv.turned hp hs hv.path_open hv.exists_free (fun _ h => h) (fun _ h => Or.inl h)
    (fun _ _ _ => Iff.rfl) (Heights.stepOnto_nonneg hs (hv.vertex_nonneg _) hb)

/-- **Closing**: the source of the first step is used up at the last vertex, and
the player has another free strategy. -/
theorem IsValid.close (hv : c.IsValid room) (hp : c.path = h :: rest) (hs : IsSource c.closed b h)
    (hb : c.vertex room c.path.length b ≤ 0) (hf : c.IsFree f) (hfp : f.player = h.player)
    (hfb : f ≠ b) : (c.turned (shut c.closed b) h rest).IsValid room := by
  have hh : h ∈ c.path := by rw [hp]; exact List.mem_cons_self
  have hho : c.closed h = false := hv.path_open h hh
  have hbh : b ≠ h := hv.ne_of_isSource hs hh
  have hbf : c.IsFree b := hv.isFree_of_source_used_up hp hs hb
  have ho : ∀ l ∈ c.path, shut c.closed b l = false := by
    intro l hl
    have hlb : l ≠ b := fun e => hbf.1 (e ▸ hl)
    rw [shut_of_ne _ hlb]
    exact hv.path_open l hl
  have hn := hv.nodup
  rw [hp, List.nodup_cons] at hn
  have hc : ∀ l ∈ rest, ∀ k, IsSource c.closed k l ↔ IsSource (shut c.closed b) k l := by
    intro l hl
    have hlp : l ∈ c.path := by rw [hp]; exact List.mem_cons_of_mem _ hl
    exact isSource_shut_iff hs hho hbh (hv.path_open l hlp) (fun e => hn.1 (e ▸ hl))
      (fun e => hbf.1 (e ▸ hlp))
  -- the source of `h` beyond the facet is what was the source of `b`
  have hff : shut c.closed b f = false := by rw [shut_of_ne _ hfb]; exact hf.2
  obtain ⟨q, hq⟩ := Label.exists_isSource (l := b) hff (hs.player_eq.symm.trans hfp.symm)
  have hqh : IsSource (shut c.closed b) q h := by
    refine hq.of_run (Run.head (shut_self _ _) (Run.of_opened (l := b) ?_))
    rw [opened_shut hs.1]; exact hs.2
  have hqb : IsSource c.closed q b := by
    have := hq.opened_self
    rwa [opened_shut hs.1] at this
  have hqne : q ≠ b := fun e => by have := hq.1; rw [e, shut_self] at this; cases this
  have hbase : c.base room b = 1 := by
    have h1 := hv.vertex_nonneg c.path.length b
    rw [hv.vertex_apply, List.take_length, one_of_not hbf.1, one_of ⟨h, hh, hs⟩] at h1 hb
    omega
  refine hv.turned hp hs ho ?_ ?_ ?_ hc
    (Heights.stepOnto_nonneg hqh (hv.vertex_nonneg _) (hv.last_source_pos hbf hqb))
  · intro l
    by_cases hl : l.player = h.player
    · exact ⟨f, hfp.trans hl.symm, hf.1, hff⟩
    · obtain ⟨k, hk, hkp, hkf⟩ := hv.exists_free l
      refine ⟨k, hk, hkp, ?_⟩
      have hkb : k ≠ b := fun e => hl (by rw [← hk, e, hs.player_eq])
      rw [shut_of_ne _ hkb]
      exact hkf
  · intro k hk
    by_cases e : k = b
    · rw [e, shut_self]
    · rw [shut_of_ne _ e]; exact hk
  · intro k hk
    by_cases e : k = b
    · exact Or.inr ⟨e, hbase⟩
    · rw [shut_of_ne _ e] at hk; exact Or.inl hk

/-! ## §3. Across the facet opposite to an inner vertex -/

/-- **Swapping**: the second of the two steps can be made first. -/
theorem IsValid.swap (hv : c.IsValid room) (hp : c.path = A ++ p :: h :: B)
    (hs : IsSource c.closed b h) (hb : 0 < c.vertex room A.length b) :
    ({ c with path := A ++ h :: p :: B } : Cell shape).IsValid room := by
  have hperm : (A ++ h :: p :: B).Perm c.path :=
    hp ▸ (List.Perm.swap p h B).append_left A
  have hfree : ∀ k, ({ c with path := A ++ h :: p :: B } : Cell shape).IsFree k ↔ c.IsFree k := by
    intro k
    exact and_congr_left' (not_congr hperm.mem_iff)
  refine {
    nodup := hperm.nodup_iff.mpr hv.nodup
    path_open := fun l hl => hv.path_open l (hperm.mem_iff.mp hl)
    exists_free := ?exists_free
    steps_nonneg := hv.steps_nonneg
    steps_free := fun k hk => hv.steps_free k ((hfree k).mp hk)
    base_closed := hv.base_closed
    room_free := fun k hk => hv.room_free k ((hfree k).mp hk)
    nonneg := ?nonneg }
  case exists_free =>
    intro l
    obtain ⟨k, hk, hkf⟩ := hv.exists_free l
    exact ⟨k, hk, (hfree k).mpr hkf⟩
  case nonneg =>
    refine nonneg_of_facet_eq (i := A.length + 1) hv (by simp) (facet_swap hp) ?_
    rw [vertex_swapped hp]
    exact Heights.stepOnto_nonneg hs (hv.vertex_nonneg _) hb

/-! ## §4. Across the facet opposite to the last vertex -/

/-- Turning back and forth again changes nothing. -/
theorem turned_unturned (hp : c.path = A ++ [h]) :
    (c.unturned closed' h A).turned c.closed h A = c := by
  refine Cell.ext hp.symm rfl ?_
  funext k
  simp only [turned, unturned]
  omega

theorem turns_unturned (hp : c.path = A ++ [h]) : (c.unturned c.closed h A).Turns c := by
  have hpath : (c.unturned c.closed h A).path = h :: A := rfl
  have ht := Turns.plain hpath
  rwa [show (c.unturned c.closed h A).closed = c.closed from rfl, turned_unturned hp] at ht

theorem turns_unturned_opened (hp : c.path = A ++ [h]) (hw : c.closed w = true)
    (hs : IsSource (opened c.closed w) w h) :
    (c.unturned (opened c.closed w) h A).Turns c := by
  have hpath : (c.unturned (opened c.closed w) h A).path = h :: A := rfl
  have ht := Turns.close hpath hs
  rwa [show (c.unturned (opened c.closed w) h A).closed = opened c.closed w from rfl,
    shut_opened hw, turned_unturned hp] at ht

/-- The cell from which one turns is valid, whatever is open there in addition. -/
theorem IsValid.unturned (hv : c.IsValid room) (hp : c.path = A ++ [h])
    (hs : IsSource closed' p h)
    (hsub : ∀ k, closed' k = true → c.closed k = true)
    (hpos : ∀ k, Run closed' k h → 0 < c.steps k)
    (hb : 0 < c.base room h)
    (hfree : ∀ k, k ∉ c.path → closed' k = false → c.steps k = 0 ∧ 0 < room k)
    (hc : ∀ l ∈ A, ∀ k, IsSource closed' k l ↔ IsSource c.closed k l) :
    (c.unturned closed' h A).IsValid room := by
  have hh : h ∈ c.path := by rw [hp]; simp
  have hperm : (h :: A).Perm c.path := hp ▸ (List.perm_append_singleton h A).symm
  have hopen : ∀ k, c.closed k = false → closed' k = false := by
    intro k hk
    cases hck : closed' k with
    | false => rfl
    | true => rw [hsub k hck] at hk; cases hk
  have hf : closed' h = false := hopen h (hv.path_open h hh)
  have hnp : ∀ {k}, (c.unturned closed' h A).IsFree k → k ∉ c.path :=
    fun hk hm => hk.1 (hperm.mem_iff.mpr hm)
  have hbase : ∀ k, (c.unturned closed' h A).base room k
      = c.base room k + one (k = p) - one (k = h) := base_unturned hs hf
  refine {
    nodup := hperm.nodup_iff.mpr hv.nodup
    path_open := fun l hl => hopen l (hv.path_open l (hperm.mem_iff.mp hl))
    exists_free := ?exists_free
    steps_nonneg := ?steps_nonneg
    steps_free := ?steps_free
    base_closed := ?base_closed
    room_free := fun k hk => (hfree k (hnp hk) hk.2).2
    nonneg := ?nonneg }
  case exists_free =>
    intro l
    obtain ⟨k, hk, hkp, hkf⟩ := hv.exists_free l
    exact ⟨k, hk, fun hm => hkp (hperm.mem_iff.mp hm), hopen k hkf⟩
  case steps_nonneg =>
    intro k
    simp only [Cell.unturned]
    by_cases hr : Run closed' k h
    · have := hpos k hr
      rw [one_of hr]; omega
    · have := hv.steps_nonneg k
      rw [one_of_not hr]; omega
  case steps_free =>
    intro k hk
    obtain ⟨h1, -⟩ := hfree k (hnp hk) hk.2
    have hr : ¬ Run closed' k h := fun hr => by have := hpos k hr; omega
    simp only [Cell.unturned]
    rw [one_of_not hr, h1]
    rfl
  case base_closed =>
    intro k hk
    have hk' : closed' k = true := hk
    have hkh : k ≠ h := fun e => by rw [e, hf] at hk'; cases hk'
    have hkp : k ≠ p := fun e => by rw [e, hs.1] at hk'; cases hk'
    rw [hbase, one_of_not hkh, one_of_not hkp, hv.base_closed k (hsub k hk')]
    rfl
  case nonneg =>
    -- only the base vertex is new, and it has lost a mesh at `h` alone
    have hfacet : ((c.unturned closed' h A).turned c.closed h A).facet room (A.length + 1) = _ :=
      facet_turned rfl hs hf hc
    rw [turned_unturned hp] at hfacet
    refine nonneg_of_facet_eq (i := 0) hv (Nat.zero_le _) hfacet.symm ?_
    intro k
    have h1 := hv.base_nonneg k
    have h2 := one_nonneg (k = p)
    rw [vertex_zero, hbase]
    by_cases hk : k = h
    · rw [one_of hk]; rw [← hk] at hb; omega
    · rw [one_of_not hk]; omega

/-- **Turning back**: the ledger has counted something all along the run to the
last label. -/
theorem IsValid.unturn (hv : c.IsValid room) (hp : c.path = A ++ [h])
    (hs : IsSource c.closed b h) (hb : 0 < c.steps b.next) :
    (c.unturned c.closed h A).IsValid room := by
  have hpos : ∀ k, Run c.closed k h → 0 < c.steps k := by
    intro k hk
    have := hv.steps_mono (hs.run_of_run hk)
    omega
  exact hv.unturned hp hs (fun _ h => h) hpos (hv.base_last_pos hp (hpos h (Run.refl _ _)))
    (fun k hk hf => ⟨hv.steps_free k ⟨hk, hf⟩, hv.room_free k ⟨hk, hf⟩⟩)
    (fun _ _ _ => Iff.rfl)

/-- **Opening**: along the run to the last label, the ledger begins to count
after a closed label, which is opened. -/
theorem IsValid.unclose (hv : c.IsValid room) (hp : c.path = A ++ [h])
    (hwc : c.closed w = true) (hwr : Run c.closed w h) (hw0 : c.steps w = 0)
    (hw1 : 0 < c.steps w.next) (hb : 0 < c.base room h) :
    IsSource (opened c.closed w) w h
      ∧ (c.unturned (opened c.closed w) h A).IsValid room := by
  have hh : h ∈ c.path := by rw [hp]; simp
  have hho : c.closed h = false := hv.path_open h hh
  obtain ⟨b, hs⟩ := hv.exists_isSource w
  have hsw : IsSource (opened c.closed w) w h := isSource_opened hwc hs hwr hho
  have hn := hv.nodup
  rw [hp, List.nodup_append] at hn
  refine ⟨hsw, hv.unturned hp hsw (fun _ => closed_of_opened) ?_ hb ?_ ?_⟩
  · -- along the run that is left, the ledger has counted as at its beginning or more
    intro k hk
    have := hv.steps_mono (hsw.run_of_run hk).of_opened
    omega
  · intro k hk hkf
    by_cases e : k = w
    · -- what has been counted behind `w` is missing from its room
      have h1 := hv.base_closed w hwc
      unfold base at h1
      rw [e]
      exact ⟨hw0, by omega⟩
    · rw [opened_of_ne _ e] at hkf
      exact ⟨hv.steps_free k ⟨hk, hkf⟩, hv.room_free k ⟨hk, hkf⟩⟩
  · intro l hl k
    exact isSource_opened_iff hwc hwr hho
      (hv.path_open l (by rw [hp]; exact List.mem_append_left _ hl))
      (fun e => hn.2.2 l hl h (by simp) e)

/-! ## §5. Into a larger cell and back -/

theorem Grows.length_path (hg : Grows c l e c') :
    e ≤ c.path.length ∧ c'.path.length = c.path.length + 1 := by
  obtain @⟨h, A, B, hp, -, -, -, -⟩ := hg
  rw [hp]
  simp
  omega

theorem Grows.perm (hg : Grows c l e c') : c'.path.Perm (l :: c.path) := by
  obtain @⟨h, A, B, hp, -, -, -, -⟩ := hg
  rw [hp]
  exact List.perm_middle

/-- The label stands on the larger path at its entry. -/
theorem Grows.getElem?_path (hg : Grows c l e c') : c'.path[e]? = some l := by
  obtain @⟨h, A, B, hp, -, -, -, -⟩ := hg
  rw [List.getElem?_append_right (Nat.le_refl _), Nat.sub_self]
  rfl

theorem Grows.eraseIdx_path (hg : Grows c l e c') : c'.path.eraseIdx e = c.path := by
  obtain @⟨h, A, B, hp, -, -, -, -⟩ := hg
  rw [hp, List.eraseIdx_append_of_length_le (Nat.le_refl _), Nat.sub_self]
  rfl

theorem Grows.insertIdx_path (hg : Grows c l e c') : c.path.insertIdx e l = c'.path := by
  have h := List.insertIdx_eraseIdx_self (l := c'.path) (n := e)
    (by have := hg.length_path; omega) l
  obtain ⟨hlt, he⟩ := List.getElem?_eq_some_iff.mp hg.getElem?_path
  rw [hg.eraseIdx_path] at h
  rw [h, ← he, List.set_getElem_self]

theorem Grows.closed_eq (hg : Grows c l e c') : c'.closed = opened c.closed l := by
  obtain @⟨h, A, B, hp, -, -, -, -⟩ := hg
  rfl

theorem Grows.steps_eq (hg : Grows c l e c') : c'.steps = c.steps := by
  obtain @⟨h, A, B, hp, -, -, -, -⟩ := hg
  rfl

theorem Grows.not_mem (hg : Grows c l e c') : l ∉ c.path := by
  obtain @⟨h, A, B, hp, hl, -, -, -⟩ := hg
  exact hl

theorem Grows.base_eq (hg : Grows c l e c') (room : Label shape → Nat) :
    c'.base room = c.base room := by
  funext k
  unfold base
  rw [hg.steps_eq]

/-- Only the label that enters is no longer free. -/
theorem Grows.isFree_iff (hg : Grows c l e c') : c'.IsFree k ↔ k ≠ l ∧ c.IsFree k := by
  have hmem : k ∈ c'.path ↔ k = l ∨ k ∈ c.path := hg.perm.mem_iff.trans List.mem_cons
  unfold IsFree
  rw [hmem, not_or, hg.closed_eq, and_assoc]
  refine and_congr_right fun hkl => ?_
  rw [opened_of_ne _ hkl]

/-- The vertex of the larger cell that the smaller one does not have. -/
theorem Grows.vertex_new (hg : Grows c l e c') (hv : c.IsValid room) :
    c'.vertex room (e + 1) = (c.vertex room e).stepOnto (opened c.closed l) l := by
  obtain @⟨h, A, B, hp, hl, hr, hf, hB⟩ := hg
  have hA : ∀ x ∈ A, ∀ k, IsSource c.closed k x ↔ IsSource (opened c.closed l) k x := by
    intro x hx
    refine isSource_iff_opened hr hf
      (hv.path_open x (by rw [hp]; exact List.mem_append_left _ hx)) ?_
    rintro rfl
    rcases hB with hB | ⟨-, hB⟩
    · obtain ⟨B', rfl⟩ := List.head?_eq_some_iff.mp hB
      have hn := hv.nodup
      rw [hp, List.nodup_append] at hn
      exact hn.2.2 x hx x List.mem_cons_self rfl
    · exact hB hx
  rw [vertex_append_cons (c := ⟨A ++ l :: B, opened c.closed l, c.steps⟩) rfl,
    vertex_append (c := ⟨A ++ l :: B, opened c.closed l, c.steps⟩) rfl, vertex_append hp,
    foldl_stepOnto_congr hA]
  rfl

/-- The source of the label that enters is not used up where it enters. -/
theorem Grows.source_pos (hg : Grows c l e c') (hv : c.IsValid room)
    (hs : IsSource c.closed b l) : 0 < c.vertex room e b := by
  obtain @⟨h, A, B, hp, -, hr, hh, hB⟩ := hg
  -- the label and the one before which it enters have the same source
  have hsh : IsSource c.closed b h := hs.of_run hr
  rcases hB with hB | ⟨rfl, hhA⟩
  · -- the next step takes a mesh from it
    obtain ⟨B', rfl⟩ := List.head?_eq_some_iff.mp hB
    have hbh : b ≠ h := hv.ne_of_isSource hsh (by rw [hp]; simp)
    have h1 := hv.vertex_nonneg (A.length + 1) b
    rw [vertex_append_cons hp, Heights.stepOnto_apply hsh, one_of_not hbh, one_of rfl] at h1
    omega
  · rw [List.append_nil] at hp
    have hpos := hv.last_source_pos ⟨hp ▸ hhA, hh⟩ hsh
    rwa [hp] at hpos

/-- **Growing**: the player has a free strategy besides the one that enters. -/
theorem IsValid.grown (hv : c.IsValid room) (hg : Grows c l e c') (hf : c.IsFree f)
    (hfp : f.player = l.player) (hfl : f ≠ l) : c'.IsValid room := by
  have hlen := hg.length_path
  have hperm := hg.perm
  have hcl := hg.closed_eq
  have hst := hg.steps_eq
  refine {
    nodup := hperm.nodup_iff.mpr (List.nodup_cons.mpr ⟨hg.not_mem, hv.nodup⟩)
    path_open := ?path_open
    exists_free := ?exists_free
    steps_nonneg := fun k => hst ▸ hv.steps_nonneg k
    steps_free := fun k hk => hst ▸ hv.steps_free k (hg.isFree_iff.mp hk).2
    base_closed := ?base_closed
    room_free := fun k hk => hv.room_free k (hg.isFree_iff.mp hk).2
    nonneg := ?nonneg }
  case path_open =>
    intro k hk
    rw [hcl]
    rcases List.mem_cons.mp (hperm.mem_iff.mp hk) with rfl | hk
    · exact Label.opened_self _ _
    · exact opened_of_free _ (hv.path_open k hk)
  case exists_free =>
    intro k
    obtain ⟨x, hx, hxf⟩ := hv.exists_free k
    by_cases e : x = l
    · exact ⟨f, by rw [hfp, ← e, hx], hg.isFree_iff.mpr ⟨hfl, hf⟩⟩
    · exact ⟨x, hx, hg.isFree_iff.mpr ⟨e, hxf⟩⟩
  case base_closed =>
    intro k hk
    rw [hcl] at hk
    rw [hg.base_eq room]
    exact hv.base_closed k (closed_of_opened hk)
  case nonneg =>
    -- the vertices of `c` are a facet, and the new one lies one step beyond
    obtain ⟨b, hs⟩ := hv.exists_isSource l
    have hfacet : c'.facet room (e + 1) = _ := hg.facet_eq hv.nodup hv.path_open ⟨f, hfp, hf.2⟩
    intro y hy
    rcases eq_vertex_or_mem_facet (m := e + 1) (by omega) hy with rfl | hy
    · rw [hg.vertex_new hv]
      exact Heights.stepOnto_nonneg hs.opened_self (hv.vertex_nonneg _) (hg.source_pos hv hs)
    · exact hv.nonneg y (hfacet ▸ hy)

/-- **Shrinking**: the label that leaves is closed where it is used up, and
otherwise free again. -/
theorem IsValid.shrunk (hv : c'.IsValid room) (hg : Grows c l e c')
    (hc : c.closed l = true → c.base room l = 0)
    (hf : c.closed l = false → c.steps l = 0 ∧ 0 < room l) : c.IsValid room := by
  have hperm := hg.perm
  have hcl := hg.closed_eq
  have hst := hg.steps_eq
  have hn : c.path.Nodup := (List.nodup_cons.mp (hperm.nodup_iff.mp hv.nodup)).2
  have ho : ∀ k ∈ c.path, c.closed k = false := by
    intro k hk
    have h1 := hv.path_open k (hperm.mem_iff.mpr (List.mem_cons_of_mem _ hk))
    have hkl : k ≠ l := fun e => hg.not_mem (e ▸ hk)
    rwa [hcl, opened_of_ne _ hkl] at h1
  refine {
    nodup := hn
    path_open := ho
    exists_free := ?exists_free
    steps_nonneg := fun k => hst ▸ hv.steps_nonneg k
    steps_free := ?steps_free
    base_closed := ?base_closed
    room_free := ?room_free
    nonneg := ?nonneg }
  case exists_free =>
    intro k
    obtain ⟨x, hx, hxf⟩ := hv.exists_free k
    exact ⟨x, hx, (hg.isFree_iff.mp hxf).2⟩
  case steps_free =>
    intro k hk
    by_cases e : k = l
    · rw [e] at hk ⊢
      exact (hf hk.2).1
    · rw [← hst]
      exact hv.steps_free k (hg.isFree_iff.mpr ⟨e, hk⟩)
  case base_closed =>
    intro k hk
    by_cases e : k = l
    · rw [e] at hk ⊢
      exact hc hk
    · rw [← hg.base_eq room]
      exact hv.base_closed k (by rw [hcl, opened_of_ne _ e]; exact hk)
  case room_free =>
    intro k hk
    by_cases e : k = l
    · rw [e] at hk ⊢
      exact (hf hk.2).2
    · exact hv.room_free k (hg.isFree_iff.mpr ⟨e, hk⟩)
  case nonneg =>
    -- the vertices are a facet of the larger cell
    obtain ⟨x, hx, hxf⟩ := hv.exists_free l
    rw [← hg.facet_eq hn ho ⟨x, hx, (hg.isFree_iff.mp hxf).2.2⟩]
    exact fun y hy => hv.nonneg y (mem_vertices_of_mem_facet hy)

/-! ## §6. Nothing beyond: the walk goes on in the facet -/

/-- **Dropping an inner entry**: the second of the two steps cannot be made
first, because its source is used up; that source is the entry before it. -/
theorem IsValid.drop_inner (hv : c.IsValid room) (hp : c.path = A ++ p :: h :: B)
    (hs : IsSource c.closed b h) (hb : c.vertex room A.length b ≤ 0) :
    Grows ⟨A ++ h :: B, shut c.closed p, c.steps⟩ p A.length c ∧ c.base room p = 0
      ∧ IsValid room ⟨A ++ h :: B, shut c.closed p, c.steps⟩ := by
  have hbp : b = p := hv.eq_of_source_used_up hp hs hb
  rw [hbp] at hs hb
  -- `p` leaves the path and is closed, and its run then leads to `h`
  have hn := hv.nodup
  rw [hp, List.nodup_append] at hn
  have hpA : p ∉ A := fun hm => hn.2.2 p hm p List.mem_cons_self rfl
  have hhA : h ∉ A := fun hm => hn.2.2 h hm h (by simp) rfl
  obtain ⟨hpB, -⟩ := List.nodup_cons.mp hn.2.1
  have hpo : c.closed p = false := hs.1
  have hho : c.closed h = false := hv.path_open h (by rw [hp]; simp)
  have hph : p ≠ h := fun e => hpB (e ▸ List.mem_cons_self)
  have hg : Grows ⟨A ++ h :: B, shut c.closed p, c.steps⟩ p A.length c := by
    have hr : Run (shut c.closed p) p h := by
      refine Run.head (shut_self _ _) (Run.of_opened (l := p) ?_)
      rw [opened_shut hpo]; exact hs.2
    have hg := Grows.intro (c := ⟨A ++ h :: B, shut c.closed p, c.steps⟩) (l := p) (h := h)
      (A := A) (B := h :: B) rfl
      (fun hm => (List.mem_append.mp hm).elim hpA hpB) hr
      ((shut_of_ne _ hph.symm).trans hho) (Or.inl rfl)
    rwa [opened_shut hpo, ← hp] at hg
  have hbase : c.base room p = 0 := by
    have h1 := hv.vertex_apply A.length p
    have h2 := hv.base_nonneg p
    have hnone : ¬ ∃ x ∈ A, IsSource c.closed p x := by
      rintro ⟨x, hx, hxs⟩
      have hxo := hv.path_open x (by rw [hp]; exact List.mem_append_left _ hx)
      exact hhA (hxs.target_unique hs hxo hho ▸ hx)
    -- no earlier step changes the height of `p`
    rw [hp, List.take_left, one_of_not hpA, one_of_not hnone] at h1
    omega
  refine ⟨hg, hbase, hv.shrunk hg (fun _ => ?_) fun hc => ?_⟩
  · rw [← hg.base_eq room]; exact hbase
  · exact absurd ((shut_self c.closed p).symm.trans hc) (by decide)

/-- **Dropping the last entry**, for which the ledger has counted nothing; it is
not used up. -/
theorem IsValid.drop_last_free (hv : c.IsValid room) (hp : c.path = A ++ [h])
    (h0 : c.steps h = 0) (hb : 0 < c.base room h) :
    Grows ⟨A, c.closed, c.steps⟩ h A.length c ∧ IsValid room ⟨A, c.closed, c.steps⟩ := by
  have hn := hv.nodup
  rw [hp, List.nodup_append] at hn
  have hhA : h ∉ A := fun hm => hn.2.2 h hm h (by simp) rfl
  have hho : c.closed h = false := hv.path_open h (by rw [hp]; simp)
  have hg : Grows ⟨A, c.closed, c.steps⟩ h A.length c := by
    have hg := Grows.intro (c := ⟨A, c.closed, c.steps⟩) (A := A) (B := [])
      (List.append_nil A).symm hhA (Run.refl c.closed h) hho (Or.inr ⟨rfl, hhA⟩)
    rwa [opened, ← hho, Function.update_eq_self, ← hp] at hg
  refine ⟨hg, hv.shrunk hg (fun hc => ?_) fun _ => ⟨h0, ?_⟩⟩
  · rw [show c.closed h = true from hc] at hho; cases hho
  · have := hv.steps_nonneg h.next
    unfold base at hb
    omega

/-- **Dropping the last entry**, which is used up and becomes closed. -/
theorem IsValid.drop_last_closed (hv : c.IsValid room) (hp : c.path = A ++ [h])
    (hb : c.base room h ≤ 0) :
    Grows ⟨A, shut c.closed h, c.steps⟩ h A.length c
      ∧ IsValid room ⟨A, shut c.closed h, c.steps⟩ := by
  have hn := hv.nodup
  rw [hp, List.nodup_append] at hn
  have hhA : h ∉ A := fun hm => hn.2.2 h hm h (by simp) rfl
  have hhp : h ∈ c.path := by rw [hp]; simp
  have hho : c.closed h = false := hv.path_open h hhp
  obtain ⟨f, hfp, hfn, hff⟩ := hv.exists_free h
  have hfh : f ≠ h := fun e => hfn (e ▸ hhp)
  obtain ⟨x, hr, hx⟩ := Label.exists_run ((shut_of_ne c.closed hfh).trans hff) hfp.symm
  have hxh : x ≠ h := fun e => by rw [e, shut_self] at hx; cases hx
  have hxo : c.closed x = false := (shut_of_ne _ hxh).symm.trans hx
  have hsx : IsSource c.closed h x := by
    have hr' := ((run_iff.mp hr).resolve_left hxh.symm).2
    refine ⟨hho, ?_⟩
    -- the run from `h` on does not come back to `h`, which is not alone
    rcases hr'.opened_or (l := h) with h1 | ⟨h1, -⟩
    · rwa [opened_shut hho] at h1
    · rw [opened_shut hho] at h1
      exact absurd (IsSource.eq_of_self ⟨hho, h1⟩ hff hfp) hfh
  -- a step onto `x` would need `h` to have something left at the base
  have hxA : x ∉ A := by
    intro hm
    obtain ⟨A₁, A₂, e⟩ := List.append_of_mem hm
    have hp' : c.path = A₁ ++ x :: (A₂ ++ [h]) := by rw [hp, e]; simp
    have := hv.base_pos_of_mem_path hp' hsx fun hm' => hhA (e ▸ List.mem_append_left _ hm')
    omega
  have hg : Grows ⟨A, shut c.closed h, c.steps⟩ h A.length c := by
    have hg := Grows.intro (c := ⟨A, shut c.closed h, c.steps⟩) (A := A) (B := [])
      (List.append_nil A).symm hhA hr hx (Or.inr ⟨rfl, hxA⟩)
    rwa [opened_shut hho, ← hp] at hg
  refine ⟨hg, hv.shrunk hg (fun _ => ?_) fun hc => ?_⟩
  · have := hv.base_nonneg h
    rw [← hg.base_eq room]; omega
  · exact absurd ((shut_self c.closed h).symm.trans hc) (by decide)

end Cell

end SimplicialNash
