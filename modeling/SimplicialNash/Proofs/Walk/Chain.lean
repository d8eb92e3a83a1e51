/-
  SimplicialNash.Proofs.Walk.Chain
  ────────────────────────────────
  **A walk never comes back to a door.**

  `Chain n a` says that a walk stands at the door `a` after `n` steps from the
  reference vertex.  There the path is empty: the walk enters a cell of one
  vertex, and nothing leads to that door.  Since steps can be taken back in one
  way only, all doors of a chain are different (`Chain.injective`).

  The same door can not be reached from inside either (`Chain.path_ne_nil`).
  Such a chain, taken backwards, would be itself; but in its middle it would
  have to turn around on the spot, and no step does that.

  Main statement: `Chain.lt_bound`, a bound on the steps of a walk in terms of
  the number of labels and the largest room.
-/
import Mathlib.Data.Fintype.List
import Mathlib.Data.Fintype.Pi
import Mathlib.Data.Fintype.Prod
import Mathlib.Data.Fintype.Option
import Mathlib.Data.Fintype.BigOperators
import SimplicialNash.Proofs.StrategyTable
import SimplicialNash.Proofs.Walk.Door

namespace SimplicialNash

open Label

variable {shape : Shape} {room : Label shape → Nat} {f : Heights shape → Label shape}

/-! ## §1. The reference vertex -/

namespace Cell

/-- The cell that consists of the reference vertex alone.  What has no room there
is closed. -/
def start (room : Label shape → Nat) : Cell shape where
  path := []
  closed := fun l => decide (room l = 0)
  steps := fun _ => 0

theorem isValid_start (h : ∀ l : Label shape, ∃ k, k.player = l.player ∧ 0 < room k) :
    (start room).IsValid room := by
  have hbase : ∀ k, (start room).base room k = room k := by
    intro k
    simp [base, start]
  refine {
    nodup := List.nodup_nil
    path_open := fun l hl => absurd hl List.not_mem_nil
    exists_free := ?exists_free
    steps_nonneg := fun _ => Int.le_refl _
    steps_free := fun _ _ => rfl
    base_closed := ?base_closed
    room_free := ?room_free
    nonneg := ?nonneg }
  case exists_free =>
    intro l
    obtain ⟨k, hk, hr⟩ := h l
    exact ⟨k, hk, List.not_mem_nil, decide_eq_false (by omega)⟩
  case base_closed =>
    intro l hl
    rw [hbase, of_decide_eq_true hl]
    rfl
  case room_free =>
    intro l hl
    have := of_decide_eq_false hl.2
    omega
  case nonneg =>
    intro y hy k
    have e : y = (start room).base room := by
      simpa [vertices, start] using hy
    rw [e, hbase]
    omega

/-- **A valid cell with an empty path is the reference vertex.** -/
theorem IsValid.eq_start {c : Cell shape} (hv : c.IsValid room) (hp : c.path = []) :
    c = start room := by
  have hsteps : ∀ k, c.steps k = 0 := by
    intro k
    obtain ⟨h, hr, hf⟩ := hv.exists_run k
    exact hv.steps_eq_zero hr (hv.steps_free h ⟨by rw [hp]; exact List.not_mem_nil, hf⟩)
  refine Cell.ext hp ?_ (funext hsteps)
  funext k
  show c.closed k = decide (room k = 0)
  cases hk : c.closed k with
  | true =>
    have := hv.base_closed k hk
    unfold base at this
    rw [hsteps, hsteps] at this
    exact (decide_eq_true (by omega)).symm
  | false =>
    have := hv.room_free k ⟨by rw [hp]; exact List.not_mem_nil, hk⟩
    exact (decide_eq_false (by omega)).symm

end Cell

namespace Door

variable {a b : Door shape} {n m : Nat}

/-- The door before the reference vertex. -/
def start (room : Label shape → Nat) : Door shape := ⟨true, .start room, 0⟩

/-- A single vertex has no facet to leave through. -/
theorem Next.path_ne_nil (h : Next room f a b) (he : a.entering = false) : a.cell.path ≠ [] := by
  intro hp
  have hlen : a.cell.path.length = 0 := by rw [hp]; rfl
  have hle := h.source.vertex_le
  cases h.step with
  | compare => cases he
  | grow => cases he
  | shrink hg => dsimp only at hle hlen; omega
  | turn ht => exact absurd ht.path_pos (by dsimp only at hlen; omega)
  | unturn ht => exact absurd ht.path_pos (by rw [← ht.perm.length_eq]; dsimp only at hlen; omega)
  | swap hs => exact absurd hs.lt_length.2 (by dsimp only at hlen; omega)

/-- **No step turns around on the spot.** -/
theorem Next.not_reversed (h : Next room f a a.reversed) : False := by
  obtain ⟨hv, -, hs⟩ := h
  generalize hb : a.reversed = b at hs
  cases hs with
  | compare hne => exact hne (congrArg vertex hb)
  | grow => cases congrArg entering hb
  | shrink => cases congrArg entering hb
  | @turn _ c' ht =>
    have h1 : 0 = c'.path.length := congrArg vertex hb
    have h2 := ht.path_pos
    rw [ht.perm.length_eq] at h1
    omega
  | @unturn _ c' m ht hm =>
    have h1 : m = 0 := congrArg vertex hb
    have h2 := ht.path_pos
    rw [← ht.perm.length_eq] at h2
    omega
  | @swap c c' m hs =>
    have hc : c.path = c'.path := congrArg Cell.path (congrArg cell hb)
    have hn := hv.cell.nodup
    obtain @⟨p, x, A, B, hp⟩ := hs
    dsimp only at hc hn
    rw [hp] at hc hn
    have hpx := (List.cons.inj (List.append_cancel_left hc)).1
    rw [List.nodup_append, List.nodup_cons] at hn
    exact hn.2.1.1 (hpx ▸ List.mem_cons_self)

/-! ## §2. Chains of steps -/

/-- After a number of steps from the reference vertex, a walk stands at a door. -/
inductive Chain (room : Label shape → Nat) (f : Heights shape → Label shape) :
    Nat → Door shape → Prop
  | start : Chain room f 0 (Door.start room)
  | step {n : Nat} {a b : Door shape} (ha : Chain room f n a) (h : Next room f a b) :
      Chain room f (n + 1) b

/-- The walk is at one door at a time. -/
theorem Chain.unique (h : Chain room f n a) (h' : Chain room f n b) : a = b := by
  induction h generalizing b with
  | start => cases h'; rfl
  | step _ hs ih =>
    cases h' with
    | step ha' hs' =>
      obtain rfl := ih ha'
      exact hs.unique hs'

/-- Nothing leads to the door before the reference vertex. -/
theorem Next.ne_start (h : Next room f a b) : b ≠ Door.start room := by
  rintro rfl
  exact h.reversed.path_ne_nil rfl rfl

/-- **All doors of a walk are different.** -/
theorem Chain.injective (h : Chain room f n a) (h' : Chain room f m a) : n = m := by
  induction h generalizing m with
  | start =>
    generalize hs : Door.start room = s at h'
    cases h' with
    | start => rfl
    | step _ hn => exact absurd hs.symm hn.ne_start
  | @step n a b _ hn ih =>
    generalize hb : b = b' at h'
    cases h' with
    | start => exact absurd hb hn.ne_start
    | step ha' hn' =>
      subst hb
      obtain rfl := hn.source_unique hn'
      rw [ih ha']

/-- A chain that leads back to its first door leads through every door both ways. -/
theorem Chain.mirrored {j k : Nat} (h : Chain room f (j + k) (Door.start room).reversed) :
    ∃ a, Chain room f j a ∧ Chain room f k a.reversed := by
  induction k generalizing j with
  | zero => exact ⟨_, h, by rw [reversed_reversed]; exact Chain.start⟩
  | succ k ih =>
    obtain ⟨a, ha, hr⟩ := ih (j := j + 1) (by rwa [Nat.add_right_comm, Nat.add_assoc])
    cases ha with
    | step hb hn => exact ⟨_, hb, hr.step hn.reversed⟩

/-- **A walk does not come back to the reference vertex.** -/
theorem Chain.ne_start_reversed (h : Chain room f n a) : a ≠ (Door.start room).reversed := by
  rintro rfl
  obtain ⟨k, rfl | rfl⟩ : ∃ k, n = k + k ∨ n = k + (k + 1) := ⟨n / 2, by omega⟩
  · -- in the middle the walk stands on both sides of a door
    obtain ⟨a, ha, hr⟩ := Chain.mirrored h
    have he := congrArg entering (ha.unique hr)
    simp [reversed] at he
  · -- in the middle the walk turns around
    obtain ⟨a, ha, hr⟩ := Chain.mirrored h
    cases hr with
    | step hb hn =>
      obtain rfl := ha.unique hb
      exact hn.not_reversed

/-- The door before the reference vertex is one, if every player has some room
there. -/
theorem isValid_start (h : ∀ l : Label shape, ∃ k, k.player = l.player ∧ 0 < room k) :
    (Door.start room).IsValid room f :=
  ⟨Cell.isValid_start h, Nat.le_refl _, List.Perm.refl _⟩

theorem Chain.isValid (h : Chain room f n a)
    (h0 : ∀ l : Label shape, ∃ k, k.player = l.player ∧ 0 < room k) : a.IsValid room f := by
  cases h with
  | start => exact isValid_start h0
  | step _ hn => exact hn.target

/-- **A walk that is inside a cell is never inside a single vertex.** -/
theorem Chain.path_ne_nil (h : Chain room f n a)
    (h0 : ∀ l : Label shape, ∃ k, k.player = l.player ∧ 0 < room k) (he : a.entering = false) :
    a.cell.path ≠ [] := by
  intro hp
  have hv := h.isValid h0
  have hle := hv.vertex_le
  rw [hp] at hle
  exact h.ne_start_reversed (Door.ext he (hv.cell.eq_start hp) (Nat.le_zero.mp hle))

end Door

/-! ## §3. How many doors there are -/

namespace Cell.IsValid

variable {c : Cell shape} {limit : Nat}

theorem length_path_le (hv : c.IsValid room) : c.path.length ≤ shape.size := by
  rw [← Label.card_eq_size]
  exact hv.nodup.length_le_card

/-- From one label to the next the ledger grows by no more than the room. -/
theorem steps_iterate_le (hv : c.IsValid room) (hroom : ∀ l, room l ≤ limit) {x : Label shape}
    (hx : c.IsFree x) (j : Nat) : c.steps (next^[j] x) ≤ (j * limit : Nat) := by
  induction j with
  | zero => rw [Function.iterate_zero, id, hv.steps_free x hx]; simp
  | succ j ih =>
    have h1 := hv.base_nonneg (next^[j] x)
    have h2 := hroom (next^[j] x)
    unfold base at h1
    rw [Function.iterate_succ_apply', Nat.succ_mul]
    omega

/-- **The ledger is bounded.**  It is empty at some free label of the player, and all
others follow that one. -/
theorem steps_le_count (hv : c.IsValid room) (hroom : ∀ l, room l ≤ limit) (l : Label shape) :
    c.steps l ≤ ((shape.count l.player - 1) * limit : Nat) := by
  obtain ⟨x, hx, hxf⟩ := hv.exists_free l
  obtain ⟨k, hk, rfl⟩ := Label.exists_iterate_next hx.symm
  have hle := Nat.mul_le_mul_right limit (Nat.le_sub_one_of_lt hk)
  rw [(iterate_next x k).1]
  exact (hv.steps_iterate_le hroom hxf k).trans (by exact_mod_cast hle)

theorem steps_le (hv : c.IsValid room) (hroom : ∀ l, room l ≤ limit) (l : Label shape) :
    c.steps l ≤ (shape.size * limit : Nat) := by
  have hle := Nat.mul_le_mul_right limit ((Nat.sub_le _ 1).trans l.count_le_size)
  exact (hv.steps_le_count hroom l).trans (by exact_mod_cast hle)

end Cell.IsValid

namespace Door

variable {a b : Door shape} {n m limit : Nat}

/-- What tells a door from all others: which way it is gone through, the number of
the opposite vertex, and the path, the flags and the ledger of the cell. -/
abbrev Code (shape : Shape) (limit : Nat) : Type :=
  Bool × Fin (shape.size + 1) × (Fin shape.size → Option (Label shape)) × (Label shape → Bool)
    × (Label shape → Fin (shape.size * limit + 1))

/-- The code of a door. -/
def code (limit : Nat) (a : Door shape) : Code shape limit :=
  (a.entering, Fin.ofNat _ a.vertex, fun i => a.cell.path[i.val]?, a.cell.closed,
    fun l => Fin.ofNat _ (a.cell.steps l).toNat)

/-- A bound on the number of doors. -/
def bound (size limit : Nat) : Nat :=
  2 * ((size + 1) * ((size + 1) ^ size * (2 ^ size * (size * limit + 1) ^ size)))

theorem card_code (shape : Shape) (limit : Nat) :
    Fintype.card (Code shape limit) = bound shape.size limit := by
  simp only [Code, Fintype.card_prod, Fintype.card_pi, Fintype.card_bool, Fintype.card_fin,
    Fintype.card_option, Label.card_eq_size, Finset.prod_const, Finset.card_univ, bound]

/-- Valid doors with the same code are equal. -/
theorem IsValid.eq_of_code_eq (ha : a.IsValid room f) (hb : b.IsValid room f)
    (hroom : ∀ l, room l ≤ limit) (h : a.code limit = b.code limit) : a = b := by
  simp only [code, Prod.mk.injEq] at h
  obtain ⟨he, hv, hp, hc, hs⟩ := h
  have hla := ha.cell.length_path_le
  have hlb := hb.cell.length_path_le
  refine Door.ext he (Cell.ext ?_ hc ?_) ?_
  · -- beyond the number of labels neither path has an entry
    refine List.ext_getElem? fun i => ?_
    by_cases hi : i < shape.size
    · exact congrFun hp ⟨i, hi⟩
    · rw [List.getElem?_eq_none (by omega), List.getElem?_eq_none (by omega)]
  · -- the ledger is small enough for the code to keep it
    funext l
    have h1 := congrArg Fin.val (congrFun hs l)
    have ha1 := ha.cell.steps_le hroom l
    have hb1 := hb.cell.steps_le hroom l
    have ha0 := ha.cell.steps_nonneg l
    have hb0 := hb.cell.steps_nonneg l
    rw [Fin.val_ofNat, Fin.val_ofNat, Nat.mod_eq_of_lt (by omega), Nat.mod_eq_of_lt (by omega)]
      at h1
    omega
  · have h1 := congrArg Fin.val hv
    have ha1 := ha.vertex_le
    have hb1 := hb.vertex_le
    rwa [Fin.val_ofNat, Fin.val_ofNat, Nat.mod_eq_of_lt (by omega), Nat.mod_eq_of_lt (by omega)]
      at h1

/-- A walk has been at a door after every smaller number of steps. -/
theorem Chain.exists_of_le (h : Chain room f n a) (hm : m ≤ n) : ∃ b, Chain room f m b := by
  induction h with
  | start => exact ⟨_, Nat.le_zero.mp hm ▸ Chain.start⟩
  | @step n a b ha hn ih =>
    rcases Nat.lt_or_ge n m with hlt | hle
    · obtain rfl : m = n + 1 := by omega
      exact ⟨b, ha.step hn⟩
    · exact ih hle

/-- **A walk makes fewer steps than there are doors.** -/
theorem Chain.lt_bound (h : Chain room f n a)
    (h0 : ∀ l : Label shape, ∃ k, k.player = l.player ∧ 0 < room k)
    (hroom : ∀ l, room l ≤ limit) : n < bound shape.size limit := by
  have hex : ∀ i : Fin (n + 1), ∃ b, Chain room f i.val b := fun i =>
    h.exists_of_le (by omega)
  choose door hdoor using hex
  have hinj : Function.Injective fun i => (door i).code limit := by
    intro i j hij
    have e := ((hdoor i).isValid h0).eq_of_code_eq ((hdoor j).isValid h0) hroom hij
    exact Fin.ext ((hdoor i).injective (e ▸ hdoor j))
  have hle := Fintype.card_le_of_injective _ hinj
  rw [card_code, Fintype.card_fin] at hle
  omega

end Door

end SimplicialNash
