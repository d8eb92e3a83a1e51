/-
  SimplicialNash.Proofs.Walk.Labels
  ─────────────────────────────────
  **Path, labels and flags tell the same story.**

  A walk keeps three records of the labels that make up its simplex: the path, in the order of
  grid steps; the labels of the vertices, in the order of the vertices; and a flag for every
  strategy.  Moves rotate and shift the first two over different ranges, and set the third one
  strategy at a time.

  Whenever a label is evaluated the three agree: what is flagged is on the path once
  (`Simplex.IsOn.count_path`) and is the label of one vertex (`Simplex.IsPending.count_labels`),
  not counting the vertex that is looked at; and each label is the one that the game gives to
  the vertex at its place (`Simplex.IsPending.getElem?_labels`).

  Main statement: `labels_of_mem_passEvaluations`.
-/
import SimplicialNash.Proofs.Walk.Reconstruction

namespace SimplicialNash

variable {shape : Shape}

/-! ## §1. The path and the flags -/

namespace Simplex

section

variable {G : Raster shape} {f : Heights shape → Label shape} {seen : Heights shape → Prop}
  {x : Simplex shape} {i : Nat}

/-- **What is triangulated is on the path once**, and nothing else is. -/
theorem IsOn.count_path (h : x.IsOn G) (l : Label shape) :
    x.path.count l = if x.triangulated.get l then 1 else 0 := by
  have hn : x.path.Nodup := h.valid.nodup
  rw [hn.count, h.triangulated]
  exact if_congr decide_eq_true_iff.symm rfl rfl

/-! ## §2. The labels of the vertices -/

/-- The labels, but for the place of the vertex that is looked at. -/
theorem IsPending.eraseIdx_labels (h : x.IsPending G f seen) :
    x.labels.eraseIdx x.slot = (x.cell.facet G.room x.slot).map fun y => some (f y) := by
  rw [h.labels, List.eraseIdx_insertIdx_self]

/-- **What is triangulated is the label of one of these vertices**, and nothing else is. -/
theorem IsPending.count_labels (h : x.IsPending G f seen)
    (hc : x.cell.IsComplete G.room f x.slot) (l : Label shape) :
    (x.labels.eraseIdx x.slot).count (some l) = if x.triangulated.get l then 1 else 0 := by
  have hsome : x.labels.eraseIdx x.slot = ((x.cell.facet G.room x.slot).map f).map some := by
    rw [h.eraseIdx_labels, List.map_map]
    rfl
  rw [hsome, List.count_map_of_injective _ _ (Option.some_injective _), hc.count_eq,
    ← h.isOn.count_path]
  rfl

/-- **The label at a place** is that of the vertex with this number. -/
theorem IsPending.getElem?_labels (h : x.IsPending G f seen) (hs : x.slot ≤ x.path.length)
    (hi : i ≤ x.path.length) (hne : i ≠ x.slot) :
    x.labels[i]? = some (some (f (x.cell.vertex G.room i))) := by
  rw [h.labels_eq hs, List.getElem?_set_ne hne.symm]
  exact getElem?_known.mpr ⟨hi, rfl⟩

end

end Simplex

/-! ## §3. At every label -/

section

variable {g : Game} {reference : Profile} {mesh : Rat} {leashLength : Nat}

/-- **Path, labels and flags of a walk.**  Whenever a label is evaluated, what is triangulated is
on the path exactly once, and nothing else is; it is exactly once among the labels, of which
there is one for each vertex, but for the place that is to be filled; and the label at every
other place is the one that the game gives to the vertex that is rebuilt there. -/
theorem labels_of_mem_passEvaluations (h : IsPassStart g reference mesh leashLength)
    {incumbent : Incumbent} {limits : PassLimits} {clock : Clock} {p : Pass reference.shape}
    (hp : p ∈ passEvaluations g reference mesh leashLength incumbent limits clock) :
    (∀ l, p.simplex.path.count l = if p.simplex.triangulated.get l then 1 else 0)
      ∧ p.simplex.labels.length = p.simplex.path.length + 1
      ∧ p.simplex.slot ≤ p.simplex.path.length
      ∧ (∀ l, (p.simplex.labels.eraseIdx p.simplex.slot).count (some l)
          = if p.simplex.triangulated.get l then 1 else 0)
      ∧ ∀ i ≤ p.simplex.path.length, i ≠ p.simplex.slot →
          ∃ (y : Point reference.shape) (d : Deviation reference.shape),
            p.simplex.rebuilt i = .ok y ∧ g.bestDeviation ⟨reference.shape, y⟩ = .ok d
              ∧ p.simplex.labels[i]? = some (some d.label) := by
  obtain ⟨G, f, -, -, -, hf, hpending, hdoor⟩ := h.exists_isPending_of_mem hp
  have hslot : p.simplex.slot ≤ p.simplex.path.length := hdoor.vertex_le
  refine ⟨hpending.isOn.count_path, hpending.length_labels hslot, hslot,
    hpending.count_labels hdoor.complete, fun i hi hne => ?_⟩
  obtain ⟨d, hd, hlabel⟩ := hf (p.simplex.cell.vertex G.room i)
  refine ⟨_, d, (p.simplex.rebuilt_eq_vertex i).trans (hpending.isOn.vertex_eq i), hd, ?_⟩
  rw [hpending.getElem?_labels hslot hi hne, hlabel]

/-- Column's step to tails has just come to stand behind Row's, and the vertex between the two is
to be labelled. -/
theorem labels_of_mem_passEvaluations_heads :
    ∃ p ∈ passEvaluations ClassicGame.matchingPennies.game.toGame heads (1 / 9) 9 ⟨2, heads, 0⟩
        .none .stopped,
      p.simplex.slot = 1
        ∧ p.simplex.path.map (fun l => (l.player, l.strategy)) = [(0, 1), (1, 1)]
        ∧ p.simplex.labels.map (Option.map fun l => (l.player, l.strategy))
          = [some (1, 1), none, some (0, 1)]
        ∧ (∀ l, p.simplex.path.count l = if p.simplex.triangulated.get l then 1 else 0)
        ∧ (∀ l, (p.simplex.labels.eraseIdx p.simplex.slot).count (some l)
          = if p.simplex.triangulated.get l then 1 else 0)
        ∧ ∃ (y : Point heads.shape) (d : Deviation heads.shape), p.simplex.rebuilt 2 = .ok y
          ∧ ClassicGame.matchingPennies.game.toGame.bestDeviation ⟨heads.shape, y⟩ = .ok d
          ∧ p.simplex.labels[2]? = some (some d.label) := by
  obtain ⟨p, hp, hslot, hpath, hlabels⟩ : ∃ p ∈ passEvaluations
      ClassicGame.matchingPennies.game.toGame heads (1 / 9) 9 ⟨2, heads, 0⟩ .none .stopped,
      p.simplex.slot = 1
        ∧ p.simplex.path.map (fun l => (l.player, l.strategy)) = [(0, 1), (1, 1)]
        ∧ p.simplex.labels.map (Option.map fun l => (l.player, l.strategy))
          = [some (1, 1), none, some (0, 1)] := by
    decide +kernel
  obtain ⟨honce, -, -, hlabelled, hgiven⟩ := labels_of_mem_passEvaluations isPassStart_heads hp
  have hlength : p.simplex.path.length = 2 := by
    simpa using congrArg List.length hpath
  exact ⟨p, hp, hslot, hpath, hlabels, honce, hlabelled,
    hgiven 2 hlength.ge (by rw [hslot]; decide)⟩

end

end SimplicialNash
