/-
  SimplicialNash.Proofs.Walk.Simplex
  ──────────────────────────────────
  What the searches around the circle find.

  A simplex looks for neighbours in tables and lists of places.  Each search is
  brought into the terms of `Label.Run` and `Label.IsSource` here, once:

      predecessor, successor — the source of a label, and what follows it
      entryFor               — the free label that a closed one leads to
      arcTo, shiftSteps      — the run to a label
      releasable?            — where the ledger begins to count along that run
      hasOneFree             — whether two free labels of a player are equal
-/
import Mathlib.Data.List.Nodup
import Mathlib.Data.Nat.ModEq
import SimplicialNash.Proofs.StrategyTable
import SimplicialNash.Proofs.Walk.Cell
import SimplicialNash.Walk.Move

namespace SimplicialNash

open Label

/-! ## §1. Places and labels -/

namespace Label

variable {shape : Shape} {closed : Label shape → Bool} {a b h k l p : Label shape}

/-- Places ahead are labels further on. -/
theorem moveTo_ahead (l : Label shape) (m : Nat) :
    l.moveTo (Circle.ahead l.place m) = next^[m] l := by
  obtain ⟨hp, hs⟩ := iterate_next l m
  exact Label.ext hp.symm hs.symm

/-- Once around the circle. -/
theorem iterate_count (l : Label shape) : next^[shape.count l.player] l = l := by
  obtain ⟨hp, hs⟩ := iterate_next l (shape.count l.player)
  exact Label.ext hp (by rw [hs, Nat.add_mod_right, Nat.mod_eq_of_lt l.inRange])

/-- Labels less than once around the circle are different. -/
theorem iterate_next_injOn {i j : Nat} (hi : i < shape.count l.player)
    (hj : j < shape.count l.player) (h : next^[i] l = next^[j] l) : i = j := by
  have hs : (next^[i] l).strategy = (next^[j] l).strategy := by rw [h]
  rw [(iterate_next l i).2, (iterate_next l j).2] at hs
  exact (Nat.ModEq.add_left_cancel' l.strategy hs).eq_of_lt_of_lt hi hj

/-- Closed labels in a row are a run. -/
theorem run_iterate {i m : Nat} (him : i ≤ m)
    (h : ∀ j, i ≤ j → j < m → closed (next^[j] l) = true) :
    Run closed (next^[i] l) (next^[m] l) := by
  induction m, him using Nat.le_induction with
  | base => exact Run.refl _ _
  | succ m him ih =>
    rw [Function.iterate_succ_apply']
    exact (ih fun j hj hjm => h j hj (by omega)).tail (h m him (Nat.lt_succ_self m))

/-- A run is a row of closed labels. -/
theorem Run.exists_iterate (h : Run closed a b) :
    ∃ m, next^[m] a = b ∧ ∀ j < m, closed (next^[j] a) = true := by
  induction h using Relation.ReflTransGen.head_induction_on with
  | refl => exact ⟨0, rfl, fun j hj => absurd hj (Nat.not_lt_zero j)⟩
  | @head x y hxy _ ih =>
    obtain ⟨hx, rfl⟩ := hxy
    obtain ⟨m, hm, hc⟩ := ih
    refine ⟨m + 1, hm, ?_⟩
    intro j hj
    cases j with
    | zero => exact hx
    | succ j => exact hc j (by omega)

/-! ## §2. The nearest free places -/

/-- The search backwards finds the source. -/
theorem isSource_of_freeBefore? {s : Fin (shape.count l.player)}
    (h : Circle.freeBefore? (fun s => closed (l.moveTo s)) l.place = some s) :
    IsSource closed (l.moveTo s) l := by
  rw [Circle.freeBefore?, Circle.backwards, List.find?_map, Option.map_eq_some_iff] at h
  obtain ⟨i, hi, rfl⟩ := h
  rw [List.find?_range_eq_some] at hi
  obtain ⟨hfree, hin, hbefore⟩ := hi
  rw [List.mem_range] at hin
  simp only [Function.comp_apply, moveTo_ahead, Bool.not_eq_true', Bool.not_not] at hfree hbefore
  refine ⟨by rw [moveTo_ahead]; exact hfree, ?_⟩
  have hrun : Run closed (next^[shape.count l.player - 1 - i + 1] l)
      (next^[shape.count l.player] l) :=
    run_iterate (by omega) fun j hj hjm => by
      have := hbefore (shape.count l.player - 1 - j) (by omega)
      rwa [show shape.count l.player - 1 - (shape.count l.player - 1 - j) = j by omega] at this
  rwa [iterate_count, Function.iterate_succ_apply', ← moveTo_ahead] at hrun

theorem exists_freeBefore? (hk : closed k = false) (hkl : k.player = l.player) :
    ∃ s, Circle.freeBefore? (fun s => closed (l.moveTo s)) l.place = some s := by
  obtain ⟨m, hm, rfl⟩ := exists_iterate_next hkl
  rw [← Option.isSome_iff_exists, Circle.freeBefore?, List.find?_isSome]
  refine ⟨Circle.ahead l.place m, ?_, by rw [moveTo_ahead, hk]; rfl⟩
  refine List.mem_map.mpr ⟨shape.count l.player - 1 - m, List.mem_range.mpr (by omega), ?_⟩
  rw [show shape.count l.player - 1 - (shape.count l.player - 1 - m) = m by omega]

/-- The search forwards finds the end of the run. -/
theorem freeFrom?_eq (hr : Run closed l h) (hf : closed h = false) :
    ∃ s, Circle.freeFrom? (fun s => closed (l.moveTo s)) l.place = some s ∧ l.moveTo s = h := by
  obtain ⟨m, hm, hc⟩ := hr.exists_iterate
  have hlt : m < shape.count l.player := by
    by_contra hge
    -- once around, the free label would be a closed one
    have h1 := hc (m - shape.count l.player) (by have := l.inRange; omega)
    have h2 : next^[m] l = next^[m - shape.count l.player] l := by
      rw [show m = m - shape.count l.player + shape.count l.player by omega,
        Function.iterate_add_apply, iterate_count, Nat.add_sub_cancel]
    rw [← h2, hm, hf] at h1
    cases h1
  refine ⟨Circle.ahead l.place m, ?_, by rw [moveTo_ahead, hm]⟩
  rw [Circle.freeFrom?, Circle.forwards, List.find?_map, Option.map_eq_some_iff]
  refine ⟨m, ?_, rfl⟩
  rw [List.find?_range_eq_some]
  simp only [Function.comp_apply, moveTo_ahead, Bool.not_eq_true', Bool.not_not, List.mem_range]
  exact ⟨by rw [hm, hf], hlt, hc⟩

/-! ## §3. Arcs -/

theorem arcTo_eq (l : Label shape) (s : Fin (shape.count l.player)) :
    l.arcTo s = (List.range ((s.val + shape.count l.player - l.strategy)
      % shape.count l.player + 1)).map fun m => next^[m] l := by
  rw [arcTo, Circle.arc, List.map_map]
  exact List.map_congr_left fun m _ => moveTo_ahead l m

/-- The arc along a run consists of closed labels, but for the last. -/
theorem arcTo_eq_of_run {s : Fin (shape.count a.player)} (hr : Run closed a (a.moveTo s)) :
    ∃ m < shape.count a.player, a.arcTo s = (List.range (m + 1)).map (fun j => next^[j] a)
      ∧ next^[m] a = a.moveTo s ∧ ∀ j < m, closed (next^[j] a) = true := by
  have ha := a.inRange
  have hlast : next^[(s.val + shape.count a.player - a.strategy) % shape.count a.player] a
      = a.moveTo s := by
    obtain ⟨hp, hs⟩ := iterate_next a
      ((s.val + shape.count a.player - a.strategy) % shape.count a.player)
    refine Label.ext hp ?_
    have e : a.strategy + (s.val + shape.count a.player - a.strategy)
        = s.val + shape.count a.player := by omega
    rw [hs, Nat.add_mod_mod, e, Nat.add_mod_right]
    exact Nat.mod_eq_of_lt s.isLt
  obtain ⟨m, hm, hc⟩ := hr.exists_iterate
  have hlt := Nat.mod_lt (s.val + shape.count a.player - a.strategy)
    (show 0 < shape.count a.player by omega)
  refine ⟨_, hlt, arcTo_eq a s, hlast, fun j hj => hc j ?_⟩
  by_contra hge
  -- the run would end before the arc, at the same label
  have e := iterate_next_injOn (by omega) hlt (hm.trans hlast.symm)
  omega

/-- The arc to a label from behind its source. -/
theorem IsSource.arcTo_eq (hs : IsSource closed p l) (hp : l.player = p.next.player) :
    ∃ m, p.next.arcTo ⟨l.strategy, hp ▸ l.inRange⟩
        = (List.range (m + 1)).map (fun j => next^[j] p.next)
      ∧ next^[m] p.next = l ∧ ∀ j < m, closed (next^[j] p.next) = true := by
  have hl : p.next.moveTo ⟨l.strategy, hp ▸ l.inRange⟩ = l := Label.ext hp.symm rfl
  have hrun : Run closed p.next (p.next.moveTo ⟨l.strategy, hp ▸ l.inRange⟩) := by
    rw [hl]
    exact hs.2
  obtain ⟨m, -, harc, hm, hc⟩ := arcTo_eq_of_run hrun
  exact ⟨m, harc, hm.trans hl, hc⟩

theorem nodup_arcTo (l : Label shape) (s : Fin (shape.count l.player)) : (l.arcTo s).Nodup := by
  rw [arcTo_eq]
  refine List.Nodup.map_on ?_ List.nodup_range
  intro i hi j hj h
  rw [List.mem_range] at hi hj
  have hlt := Nat.mod_lt (s.val + shape.count l.player - l.strategy)
    (Nat.lt_of_le_of_lt (Nat.zero_le _) l.inRange)
  exact iterate_next_injOn (by omega) (by omega) h

/-- **The arc from behind a source is the run to its label.** -/
theorem mem_arcTo {s : Fin (shape.count p.next.player)}
    (hs : IsSource closed p (p.next.moveTo s)) (hf : closed (p.next.moveTo s) = false) :
    k ∈ p.next.arcTo s ↔ Run closed k (p.next.moveTo s) := by
  obtain ⟨m, -, harc, hm, hc⟩ := arcTo_eq_of_run hs.2
  rw [harc, List.mem_map]
  constructor
  · rintro ⟨j, hj, rfl⟩
    rw [List.mem_range] at hj
    rw [← hm]
    exact run_iterate (by omega) fun i _ him => hc i him
  · intro hk
    obtain ⟨j, rfl, hj⟩ := (hs.run_of_run hk).exists_iterate
    refine ⟨j, List.mem_range.mpr ?_, rfl⟩
    by_contra hge
    have := hj m (by omega)
    rw [hm, hf] at this
    cases this

end Label

/-! ## §4. The searches of a simplex -/

namespace Simplex

variable {shape : Shape} {x : Simplex shape} {a b f h k l p : Label shape}

/-- The simplex without the bookkeeping. -/
def cell (x : Simplex shape) : Cell shape := ⟨x.path, x.saturated.get, x.steps.get⟩

@[simp] theorem cell_path (x : Simplex shape) : x.cell.path = x.path := rfl

theorem predecessor_eq (hs : IsSource x.saturated.get p l) : x.predecessor l = .ok p := by
  obtain ⟨s, hfound⟩ := exists_freeBefore? hs.1 hs.player_eq.symm
  have e := (isSource_of_freeBefore? hfound).unique hs
  unfold predecessor closed
  rw [hfound]
  exact congrArg Except.ok e

theorem successor_eq (hs : IsSource x.saturated.get p l) : x.successor l = .ok p.next := by
  obtain ⟨s, hfound⟩ := exists_freeBefore? hs.1 hs.player_eq.symm
  obtain rfl := (isSource_of_freeBefore? hfound).unique hs
  unfold successor Circle.afterFreeBefore? closed
  rw [hfound]
  rfl

theorem entryFor_eq (hr : Run x.saturated.get l h) (hf : x.saturated.get h = false) :
    x.entryFor l
      = .ok (if x.triangulated.get h then x.path.idxOf h else x.path.length) := by
  obtain ⟨s, hfound, rfl⟩ := freeFrom?_eq hr hf
  unfold entryFor closed
  rw [hfound]

/-- An amount is added at each label of a list. -/
theorem get_foldl_modify {ls : List (Label shape)} (hn : ls.Nodup)
    (t : StrategyTable shape Int) (amount : Int) :
    (ls.foldl (fun t l => t.modify l (· + amount)) t).get k = t.get k + amount * one (k ∈ ls) := by
  induction ls generalizing t with
  | nil => simp
  | cons m ls ih =>
    obtain ⟨hm, hn⟩ := List.nodup_cons.mp hn
    rw [List.foldl_cons, ih hn, StrategyTable.modify, StrategyTable.get_set_eq]
    by_cases e : m = k
    · -- the rest of the list leaves this label alone
      subst e
      rw [if_pos rfl, one_of_not hm, one_of List.mem_cons_self]
      omega
    · have hiff : k ∈ m :: ls ↔ k ∈ ls := by simp [Ne.symm e]
      rw [if_neg e, propext hiff]

/-- The ledger along the run to a label. -/
theorem get_shiftSteps (hs : IsSource x.saturated.get p l) (hf : x.saturated.get l = false)
    (amount : Int) :
    (x.shiftSteps p.next l amount).get k
      = x.steps.get k + amount * one (Run x.saturated.get k l) := by
  have hp : l.player = p.next.player := hs.player_eq
  have hl : p.next.moveTo ⟨l.strategy, hp ▸ l.inRange⟩ = l := Label.ext hp.symm rfl
  have hmem := mem_arcTo (k := k) (s := ⟨l.strategy, hp ▸ l.inRange⟩) (hl.symm ▸ hs)
    (hl.symm ▸ hf)
  rw [hl] at hmem
  rw [shiftSteps, dif_pos hp, get_foldl_modify (nodup_arcTo _ _), propext hmem]

/-- Something is released where the ledger begins to count. -/
theorem releasable?_eq_some {w : Label shape} (hs : IsSource x.saturated.get p l)
    (hw : x.releasable? p.next l = some w) :
    x.saturated.get w = true ∧ Run x.saturated.get w l ∧ x.steps.get w = 0
      ∧ x.steps.get w.next ≠ 0 := by
  have hp : l.player = p.next.player := hs.player_eq
  obtain ⟨m, harc, hm, hc⟩ := hs.arcTo_eq hp
  rw [releasable?, dif_pos hp, harc] at hw
  dsimp only at hw
  split at hw
  · next i hi =>
    -- what is found is the label directly before the first that has been counted
    obtain ⟨hlt, hne, hzero⟩ := List.findIdx?_eq_some_iff_getElem.mp hi
    have hi0 := hzero i (Nat.lt_succ_self i)
    simp only [List.length_map, List.length_range] at hlt
    simp only [List.getElem_map, List.getElem_range, bne_iff_ne, ne_eq, Decidable.not_not]
      at hne hi0
    rw [List.getElem?_map, List.getElem?_range (by omega), Option.map_some,
      Option.some.injEq] at hw
    subst hw
    rw [Function.iterate_succ_apply'] at hne
    refine ⟨hc i (by omega), ?_, hi0, hne⟩
    have hr : Run x.saturated.get (next^[i] p.next) (next^[m] p.next) :=
      run_iterate (by omega) fun j _ hjm => hc j hjm
    rwa [hm] at hr
  · cases hw

/-- Otherwise the ledger has counted nothing for the label. -/
theorem steps_of_releasable?_eq_none (hs : IsSource x.saturated.get p l)
    (h0 : x.steps.get p.next = 0) (hw : x.releasable? p.next l = none) :
    x.steps.get l = 0 := by
  have hp : l.player = p.next.player := hs.player_eq
  obtain ⟨m, harc, hm, hc⟩ := hs.arcTo_eq hp
  have hlast : l ∈ p.next.arcTo ⟨l.strategy, hp ▸ l.inRange⟩ := by
    rw [harc]
    exact List.mem_map.mpr ⟨m, by simp, hm⟩
  rw [releasable?, dif_pos hp] at hw
  dsimp only at hw
  cases hi : (p.next.arcTo ⟨l.strategy, hp ▸ l.inRange⟩).findIdx? fun l => x.steps.get l != 0 with
  | none =>
    have := List.findIdx?_eq_none_iff.mp hi l hlast
    simpa using this
  | some i =>
    obtain ⟨hlt, hne, -⟩ := List.findIdx?_eq_some_iff_getElem.mp hi
    rw [hi] at hw
    cases i with
    | zero =>
      -- the arc begins behind the source
      simp only [harc, List.getElem_map, List.getElem_range, Function.iterate_zero, id, h0] at hne
      cases hne
    | succ i =>
      dsimp only at hw
      rw [List.getElem?_eq_getElem (by omega)] at hw
      cases hw

/-! ## §5. Fixed strategies -/

/-- The strategies of a player that are not fixed. -/
theorem length_filter_isFixed (x : Simplex shape) (player : Nat) :
    (Label.ofPlayer shape player).countP x.isFixed
      + ((Label.ofPlayer shape player).filter fun l => !x.isFixed l).length
      = shape.count player := by
  have h := List.length_eq_countP_add_countP x.isFixed (l := Label.ofPlayer shape player)
  rw [Label.length_ofPlayer] at h
  rw [← List.countP_eq_length_filter, h]
  congr 1
  exact List.countP_congr fun l _ => by simp

/-- Where one strategy is free, no other one is. -/
theorem eq_of_hasOneFree (h : x.hasOneFree k.player = true) (ha : x.isFixed a = false)
    (hb : x.isFixed b = false) (hak : a.player = k.player) (hbk : b.player = k.player) :
    a = b := by
  have hlen := length_filter_isFixed x k.player
  rw [hasOneFree, beq_iff_eq] at h
  obtain ⟨c, hc⟩ := List.length_eq_one_iff.mp
    (show ((Label.ofPlayer shape k.player).filter fun l => !x.isFixed l).length = 1 by omega)
  have hmem : ∀ l : Label shape, x.isFixed l = false → l.player = k.player → l = c := by
    intro l hl hlk
    have : l ∈ (Label.ofPlayer shape k.player).filter fun l => !x.isFixed l :=
      List.mem_filter.mpr ⟨Label.mem_ofPlayer.mpr hlk, by rw [hl]; rfl⟩
    rwa [hc, List.mem_singleton] at this
  rw [hmem a ha hak, hmem b hb hbk]

/-- Where not only one strategy is free, another one is. -/
theorem exists_ne_of_hasOneFree (h : x.hasOneFree k.player = false) (ha : x.isFixed a = false)
    (hak : a.player = k.player) :
    ∃ f, x.isFixed f = false ∧ f.player = k.player ∧ f ≠ a := by
  by_contra hno
  have hlen := length_filter_isFixed x k.player
  have hall : ∀ l ∈ (Label.ofPlayer shape k.player).filter fun l => !x.isFixed l, l = a := by
    intro l hl
    obtain ⟨hl, hlf⟩ := List.mem_filter.mp hl
    by_contra hla
    exact hno ⟨l, by simpa using hlf, Label.mem_ofPlayer.mp hl, hla⟩
  have hn : ((Label.ofPlayer shape k.player).filter fun l => !x.isFixed l).Nodup :=
    (Label.nodup_ofPlayer k.player).filter _
  have hmem : a ∈ (Label.ofPlayer shape k.player).filter fun l => !x.isFixed l :=
    List.mem_filter.mpr ⟨Label.mem_ofPlayer.mpr hak, by rw [ha]; rfl⟩
  -- if no other strategy is free, the list of the free ones has one entry
  have hone : ((Label.ofPlayer shape k.player).filter fun l => !x.isFixed l) = [a] := by
    by_contra hne
    rcases (hn.ne_singleton_iff a).mp hne with he | ⟨b, hb, hba⟩
    · rw [he] at hmem
      exact absurd hmem List.not_mem_nil
    · exact hba (hall b hb)
  rw [hone, List.length_singleton] at hlen
  rw [hasOneFree, beq_eq_false_iff_ne] at h
  omega

end Simplex

end SimplicialNash
