/-
  SimplicialNash.Proofs.Start
  ───────────────────────────
  **Random starts are the profiles on the grid of their denominator.**

  A player's shares are as many as the player has strategies and sum to the denominator,
  whatever is drawn (`length_and_sum_of_drawShares`), so each player's weights are a
  distribution on the grid.  Counted in 32-bit words, what is used up is at most the
  denominator all along (`wordShares?_eq_some`): no sum and no difference leaves the words.

  The other way round, shares that sum to the denominator are drawn if each but the last is
  what a source answers as long as anything is left (`exists_answers_drawShares`).

  Main statement, for every game whose players have strategies and every denominator that is
  a word: `randomStart_grid`.
-/
import SimplicialNash.Capacity
import SimplicialNash.Game.Classic
import SimplicialNash.Proofs.Denominator
import SimplicialNash.Proofs.Profile.Text
import SimplicialNash.Proofs.StrategyTable.Layout

namespace SimplicialNash

open SimplicialNash.Number (total total_nil total_cons)

/-! ## §1. Sources -/

namespace DrawSource

variable {σ : Type}

/-- Whatever a source answers is in the range asked for. -/
def InRange (draw : DrawSource σ) : Prop :=
  ∀ state max share next, max < UInt32.size → draw state max = some (share, next) → share ≤ max

/-- A source answers whatever range is asked for. -/
def Answers (draw : DrawSource σ) : Prop :=
  ∀ state max, max < UInt32.size → (draw state max).isSome

/-- The source that gives the numbers of a list, each if it is in the range asked for. -/
def replay : DrawSource (List Nat)
  | [], _ => none
  | share :: rest, max => if share ≤ max then some (share, rest) else none

end DrawSource

/-! ## §2. What is drawn -/

section

variable {σ : Type} {draw : DrawSource σ} {n left denominator : Nat} {shape : Shape}
  {state next : σ} {shares : List Nat}

/-- **One draw** takes its share of what is left, and the other strategies draw from the rest. -/
theorem drawShares_eq_some_iff :
    drawShares draw (n + 2) (left + 1) state = some (shares, next)
      ↔ ∃ share mid others, draw state (left + 1) = some (share, mid)
        ∧ drawShares draw (n + 1) (left + 1 - share) mid = some (others, next)
        ∧ shares = share :: others := by
  simp only [drawShares, Option.bind_eq_bind, Option.bind_eq_some_iff, Option.pure_def,
    Option.some.injEq, Prod.mk.injEq, Prod.exists]
  constructor
  · rintro ⟨share, mid, hdraw, others, _, hothers, rfl, rfl⟩
    exact ⟨share, mid, others, hdraw, hothers, rfl⟩
  · rintro ⟨share, mid, others, hdraw, hothers, rfl⟩
    exact ⟨share, mid, hdraw, others, next, hothers, rfl, rfl⟩

theorem drawAllShares_eq_some_iff :
    drawAllShares draw denominator (n :: shape) state = some (shares, next)
      ↔ ∃ first mid others, drawShares draw n denominator state = some (first, mid)
        ∧ drawAllShares draw denominator shape mid = some (others, next)
        ∧ shares = first ++ others := by
  simp only [drawAllShares, Option.bind_eq_bind, Option.bind_eq_some_iff, Option.pure_def,
    Option.some.injEq, Prod.mk.injEq, Prod.exists]
  constructor
  · rintro ⟨first, mid, hfirst, others, _, hothers, rfl, rfl⟩
    exact ⟨first, mid, others, hfirst, hothers, rfl⟩
  · rintro ⟨first, mid, others, hfirst, hothers, rfl⟩
    exact ⟨first, mid, hfirst, others, next, hothers, rfl, rfl⟩

/-- **The shares of a player** are one for each strategy, and sum to what the player has. -/
theorem length_and_sum_of_drawShares (hrange : draw.InRange) (hn : n ≠ 0)
    (hleft : left < UInt32.size) (h : drawShares draw n left state = some (shares, next)) :
    shares.length = n ∧ shares.sum = left := by
  induction n generalizing left state shares with
  | zero => exact absurd rfl hn
  | succ n ih =>
    cases n with
    | zero =>
      cases h
      exact ⟨rfl, Nat.add_zero left⟩
    | succ n =>
      cases left with
      | zero =>
        cases h
        exact ⟨List.length_replicate, by simp⟩
      | succ left =>
        obtain ⟨share, mid, others, hdraw, hothers, rfl⟩ := drawShares_eq_some_iff.mp h
        have hshare := hrange _ _ _ _ hleft hdraw
        obtain ⟨hlength, hsum⟩ := ih (Nat.succ_ne_zero n) (by omega) hothers
        rw [List.length_cons, List.sum_cons, hlength, hsum]
        exact ⟨rfl, by omega⟩

/-- The shares of all players, player by player. -/
theorem exists_rows_of_drawAllShares (hrange : draw.InRange) (h0 : 0 ∉ shape)
    (hword : denominator < UInt32.size)
    (h : drawAllShares draw denominator shape state = some (shares, next)) :
    ∃ rows : List (List Nat), rows.flatten = shares ∧ rows.map List.length = shape
      ∧ ∀ row ∈ rows, row.sum = denominator := by
  induction shape generalizing state shares with
  | nil =>
    cases h
    exact ⟨[], rfl, rfl, by simp⟩
  | cons n shape ih =>
    obtain ⟨hn, h0⟩ := not_or.mp (List.mem_cons.not.mp h0)
    obtain ⟨first, mid, others, hfirst, hothers, rfl⟩ := drawAllShares_eq_some_iff.mp h
    obtain ⟨hlength, hsum⟩ := length_and_sum_of_drawShares hrange (Ne.symm hn) hword hfirst
    obtain ⟨rows, rfl, rfl, hrows⟩ := ih h0 hothers
    refine ⟨first :: rows, rfl, by rw [List.map_cons, hlength], ?_⟩
    exact List.forall_mem_cons.mpr ⟨hsum, hrows⟩

/-- No share is more than the denominator. -/
theorem le_of_mem_of_drawAllShares (hrange : draw.InRange) (h0 : 0 ∉ shape)
    (hword : denominator < UInt32.size)
    (h : drawAllShares draw denominator shape state = some (shares, next)) {k : Nat}
    (hk : k ∈ shares) : k ≤ denominator := by
  obtain ⟨rows, rfl, -, hrows⟩ := exists_rows_of_drawAllShares hrange h0 hword h
  obtain ⟨row, hrow, hk⟩ := List.mem_flatten.mp hk
  exact (List.le_sum_of_mem hk).trans_eq (hrows row hrow)

/-- A source that answers gives every player shares. -/
theorem exists_drawShares (hanswers : draw.Answers) (hleft : left < UInt32.size) (n : Nat)
    (state : σ) : ∃ shares next, drawShares draw n left state = some (shares, next) := by
  induction n generalizing left state with
  | zero => exact ⟨_, _, rfl⟩
  | succ n ih =>
    cases n with
    | zero => exact ⟨_, _, rfl⟩
    | succ n =>
      cases left with
      | zero => exact ⟨_, _, rfl⟩
      | succ left =>
        obtain ⟨⟨share, mid⟩, hdraw⟩ := Option.isSome_iff_exists.mp (hanswers state _ hleft)
        have hrest : left + 1 - share < UInt32.size := by omega
        obtain ⟨others, next, hothers⟩ := ih hrest mid
        exact ⟨_, _, drawShares_eq_some_iff.mpr ⟨_, _, _, hdraw, hothers, rfl⟩⟩

theorem exists_drawAllShares (hanswers : draw.Answers) (hword : denominator < UInt32.size)
    (shape : Shape) (state : σ) :
    ∃ shares next, drawAllShares draw denominator shape state = some (shares, next) := by
  induction shape generalizing state with
  | nil => exact ⟨_, _, rfl⟩
  | cons n shape ih =>
    obtain ⟨first, mid, hfirst⟩ := exists_drawShares hanswers hword n state
    obtain ⟨others, next, hothers⟩ := ih mid
    exact ⟨_, _, drawAllShares_eq_some_iff.mpr ⟨_, _, _, hfirst, hothers, rfl⟩⟩

end

/-! ## §3. Counting in words -/

namespace Word

/-- The sum of two words, if it is a word. -/
def add? (a b : UInt32) : Option UInt32 :=
  if a.toNat + b.toNat < UInt32.size then some (a + b) else none

/-- The difference of two words, if it is one. -/
def sub? (a b : UInt32) : Option UInt32 := if b ≤ a then some (a - b) else none

theorem add?_eq_some {a b : UInt32} (h : a.toNat + b.toNat < UInt32.size) :
    add? a b = some (UInt32.ofNat (a.toNat + b.toNat)) := by
  rw [add?, if_pos h]
  simp

theorem sub?_eq_some {a b : UInt32} (h : b.toNat ≤ a.toNat) :
    sub? a b = some (UInt32.ofNat (a.toNat - b.toNat)) := by
  rw [sub?, if_pos (UInt32.le_iff_toNat_le.mpr h), ← UInt32.toNat_sub_of_le a b
    (UInt32.le_iff_toNat_le.mpr h), UInt32.ofNat_toNat]

end Word

section

variable {σ : Type}

/-- A player's shares, counted in words.  What is used up is added up, and what is left is its
difference from the denominator; as soon as a sum or a difference is not a word, there are no
shares. -/
def wordShares? (draw : DrawSource σ) (denominator : UInt32) :
    (strategies : Nat) → (used : UInt32) → σ → Option (List UInt32 × σ)
  | 0, _, state => some ([], state)
  | 1, used, state => do
    let rest ← Word.sub? denominator used
    return ([rest], state)
  | n + 2, used, state =>
    if denominator ≤ used then do
      let rest ← Word.sub? denominator used
      return (List.replicate (n + 1) 0 ++ [rest], state)
    else do
      let left ← Word.sub? denominator used
      let (share, state) ← draw state left.toNat
      let used ← Word.add? used (UInt32.ofNat share)
      let (others, state) ← wordShares? draw denominator (n + 1) used state
      return (UInt32.ofNat share :: others, state)

/-- The shares of all players, counted in words. -/
def wordAllShares? (draw : DrawSource σ) (denominator : UInt32) :
    Shape → σ → Option (List UInt32 × σ)
  | [], state => some ([], state)
  | n :: rest, state => do
    let (shares, state) ← wordShares? draw denominator n 0 state
    let (others, state) ← wordAllShares? draw denominator rest state
    return (shares ++ others, state)

variable {draw : DrawSource σ} {denominator used : UInt32} {n : Nat} {shape : Shape}
  {state next : σ} {shares : List Nat}

/-- **What is used up never exceeds the denominator**, so nothing leaves the words. -/
theorem wordShares?_eq_some (hrange : draw.InRange) (hused : used.toNat ≤ denominator.toNat)
    (h : drawShares draw n (denominator.toNat - used.toNat) state = some (shares, next)) :
    wordShares? draw denominator n used state = some (shares.map UInt32.ofNat, next) := by
  induction n generalizing used state shares with
  | zero =>
    cases h
    rfl
  | succ n ih =>
    have hword := denominator.toNat_lt_size
    cases n with
    | zero =>
      cases h
      rw [wordShares?, Word.sub?_eq_some hused]
      rfl
    | succ n =>
      rw [wordShares?, Word.sub?_eq_some hused]
      rcases Nat.eq_or_lt_of_le hused with heq | hlt
      · -- nothing is left, and nothing is drawn
        rw [heq, Nat.sub_self] at h
        cases h
        rw [if_pos (UInt32.le_iff_toNat_le.mpr heq.ge), heq, Nat.sub_self]
        simp [List.replicate_succ']
      · obtain ⟨left, hleft⟩ := Nat.exists_eq_succ_of_ne_zero (Nat.sub_ne_zero_of_lt hlt)
        rw [hleft] at h
        obtain ⟨share, mid, others, hdraw, hothers, rfl⟩ := drawShares_eq_some_iff.mp h
        have hshare := hrange _ _ _ _ (by omega) hdraw
        have hshareWord : (UInt32.ofNat share).toNat = share :=
          UInt32.toNat_ofNat_of_lt' (by omega)
        have hnext : (UInt32.ofNat (used.toNat + share)).toNat = used.toNat + share :=
          UInt32.toNat_ofNat_of_lt' (by omega)
        have hleftWord : (UInt32.ofNat (left + 1)).toNat = left + 1 :=
          UInt32.toNat_ofNat_of_lt' (by omega)
        -- the share is at most what is left, so the sum stays at or below the denominator
        have hrest : denominator.toNat - (UInt32.ofNat (used.toNat + share)).toNat
            = left + 1 - share := by omega
        rw [← hrest] at hothers
        rw [if_neg (mt UInt32.le_iff_toNat_le.mp (by omega))]
        simp only [Option.bind_eq_bind, Option.bind_some, hleft, hleftWord, hdraw,
          Word.add?_eq_some (show used.toNat + (UInt32.ofNat share).toNat < _ by omega),
          hshareWord, ih (by omega) hothers]
        rfl

theorem wordAllShares?_eq_some (hrange : draw.InRange)
    (h : drawAllShares draw denominator.toNat shape state = some (shares, next)) :
    wordAllShares? draw denominator shape state = some (shares.map UInt32.ofNat, next) := by
  induction shape generalizing state shares with
  | nil =>
    cases h
    rfl
  | cons n shape ih =>
    obtain ⟨first, mid, others, hfirst, hothers, rfl⟩ := drawAllShares_eq_some_iff.mp h
    have hwords : wordShares? draw denominator n 0 state
        = some (first.map UInt32.ofNat, mid) :=
      wordShares?_eq_some hrange (Nat.zero_le denominator.toNat) hfirst
    simp only [wordAllShares?, Option.bind_eq_bind, hwords, Option.bind_some, ih hothers,
      List.map_append]
    rfl

end

/-! ## §4. Shares as weights -/

section

variable {denominator : Nat} {counts : List Nat}

/-- The weight of a number of shares. -/
def weightOf (denominator : Nat) (k : Nat) : Rat := mkRat k denominator

theorem weightOf_eq (denominator k : Nat) : weightOf denominator k = k / denominator := by
  rw [weightOf, Rat.mkRat_eq_div, Int.cast_natCast]

theorem total_map_weightOf (denominator : Nat) (counts : List Nat) :
    total (counts.map (weightOf denominator)) = counts.sum / denominator := by
  induction counts with
  | nil => simp
  | cons k counts ih =>
    rw [List.map_cons, total_cons, ih, weightOf_eq, List.sum_cons, Nat.cast_add, add_div]

/-- **Shares that sum to the denominator** are a distribution. -/
theorem isDistribution_map_weightOf (hpos : 0 < denominator) :
    Profile.IsDistribution (counts.map (weightOf denominator)) ↔ counts.sum = denominator := by
  have hne : (denominator : Rat) ≠ 0 := Nat.cast_ne_zero.mpr hpos.ne'
  rw [Profile.IsDistribution, total_map_weightOf, div_eq_one_iff_eq hne, Nat.cast_inj,
    and_iff_right_iff_imp]
  rintro - w hw
  obtain ⟨k, -, rfl⟩ := List.mem_map.mp hw
  rw [weightOf_eq]
  positivity

/-- The shares that a weight stands for. -/
def sharesOf (denominator : Nat) (w : Rat) : Nat := (w * denominator).num.toNat

/-- A weight on the grid is the weight of its shares. -/
theorem weightOf_sharesOf (hpos : 0 < denominator) {w : Rat} (hw : 0 ≤ w)
    (hgrid : ∃ k : Int, w = k * (1 / denominator)) :
    weightOf denominator (sharesOf denominator w) = w := by
  obtain ⟨k, rfl⟩ := hgrid
  have hne : (denominator : Rat) ≠ 0 := Nat.cast_ne_zero.mpr hpos.ne'
  have hcount : (k : Rat) * (1 / denominator) * denominator = k := by
    rw [mul_assoc, one_div_mul_cancel hne, mul_one]
  have hk : 0 ≤ k := by
    have h := mul_nonneg hw (Nat.cast_nonneg (α := Rat) denominator)
    rw [hcount] at h
    exact_mod_cast h
  rw [weightOf_eq, sharesOf, hcount, Rat.num_intCast, ← Int.cast_natCast, Int.toNat_of_nonneg hk]
  ring

end

namespace Profile

/-- Distributions, one after another, are a profile. -/
theorem exists_ofValues_eq_ok {rows : List (List Rat)} (hne : rows ≠ [])
    (hrows : ∀ row ∈ rows, IsDistribution row) :
    ∃ p, ofValues (rows.map List.length) rows.flatten = .ok p := by
  have h0 : 0 ∉ rows.map List.length := by
    intro h
    obtain ⟨row, hrow, hlength⟩ := List.mem_map.mp h
    obtain rfl := List.length_eq_zero_iff.mp hlength
    exact absurd (hrows [] hrow).2 (by decide)
  have hsize : rows.flatten.length = Shape.size (rows.map List.length) := by
    rw [Shape.size_eq_sum, List.length_flatten]
  obtain ⟨weights, hweights⟩ :=
    Option.isSome_iff_exists.mp ((StrategyTable.ofList?_isSome_iff _ _).mpr hsize)
  have hcut : weights.rows = rows := by
    rw [StrategyTable.rows, StrategyTable.toList_of_ofList? hweights, StrategyTable.cut_flatten]
  rw [ofValues, if_neg (not_or.mpr ⟨mt List.map_eq_nil_iff.mp hne, h0⟩), hweights]
  dsimp only
  rw [hcut, (rowsError?_eq_none_iff 0 rows).mpr hrows]
  exact ⟨_, rfl⟩

end Profile

/-! ## §5. Random starts -/

/-- What random starts are drawn for: a game whose players have strategies, and a denominator
that is a word. -/
structure AdmitsStarts (g : Game) (denominator : Nat) : Prop where
  players : g.shape ≠ []
  strategies : 0 ∉ g.shape
  pos : 0 < denominator
  isWord : denominator < UInt32.size

/-- A valid profile of a game, on the grid of a denominator. -/
structure IsGridProfile (g : Game) (denominator : Nat) (p : Profile) : Prop where
  shape_eq : p.shape = g.shape
  isNormalized : p.IsNormalized
  isOnGrid : p.IsOnGrid (1 / denominator)

section

variable {σ : Type} {draw : DrawSource σ} {g : Game} {denominator : Nat} {state next : σ}
  {shares : List Nat} {p : Profile}

theorem randomStart_eq_ok (h : drawAllShares draw denominator g.shape state = some (shares, next))
    (hp : Profile.ofValues g.shape (shares.map (weightOf denominator)) = .ok p) :
    randomStart g denominator draw state = .ok (p, next) := by
  have hweights : Profile.ofValues g.shape (shares.map fun (k : Nat) => mkRat k denominator)
      = .ok p := hp
  rw [randomStart, h]
  dsimp only
  rw [hweights]

/-- **Shares that are drawn are the start.** -/
theorem exists_randomStart_eq_ok (hg : AdmitsStarts g denominator) (hrange : draw.InRange)
    (h : drawAllShares draw denominator g.shape state = some (shares, next)) :
    ∃ p, randomStart g denominator draw state = .ok (p, next)
      ∧ p.values = shares.map (weightOf denominator) ∧ IsGridProfile g denominator p := by
  obtain ⟨rows, rfl, hshape, hsums⟩ :=
    exists_rows_of_drawAllShares hrange hg.strategies hg.isWord h
  have hlengths : (rows.map (List.map (weightOf denominator))).map List.length = g.shape := by
    rw [List.map_map, ← hshape]
    exact List.map_congr_left fun row _ => List.length_map _
  have hne : rows.map (List.map (weightOf denominator)) ≠ [] := by
    intro hnil
    rw [hnil] at hlengths
    exact hg.players hlengths.symm
  obtain ⟨p, hp⟩ := Profile.exists_ofValues_eq_ok hne (List.forall_mem_map.mpr fun row hrow =>
    (isDistribution_map_weightOf hg.pos).mpr (hsums row hrow))
  rw [hlengths, ← List.map_flatten] at hp
  obtain ⟨hnormalized, hpshape, hvalues⟩ := Profile.isNormalized_of_ofValues hp
  refine ⟨p, randomStart_eq_ok h hp, hvalues, hpshape, hnormalized, fun w hw => ?_⟩
  rw [hvalues] at hw
  obtain ⟨k, -, rfl⟩ := List.mem_map.mp hw
  exact ⟨k, by rw [weightOf_eq, Int.cast_natCast, mul_one_div]⟩

/-- **Whatever is drawn within the ranges asked for is on the grid.** -/
theorem isGridProfile_of_randomStart (hg : AdmitsStarts g denominator) (hrange : draw.InRange)
    (h : randomStart g denominator draw state = .ok (p, next)) :
    IsGridProfile g denominator p := by
  cases hshares : drawAllShares draw denominator g.shape state with
  | none =>
    rw [randomStart, hshares] at h
    cases h
  | some drawn =>
    obtain ⟨q, hq, -, hgrid⟩ := exists_randomStart_eq_ok hg hrange hshares
    rw [hq] at h
    cases h
    exact hgrid

/-- **Starts from one source**, as many as are asked for, are on the grid. -/
theorem isGridProfile_of_randomStarts (hg : AdmitsStarts g denominator) (hrange : draw.InRange)
    {count : Nat} {ps : List Profile}
    (h : randomStarts g denominator draw count state = .ok (ps, next)) :
    ps.length = count ∧ ∀ p ∈ ps, IsGridProfile g denominator p := by
  induction count generalizing state ps with
  | zero =>
    cases h
    exact ⟨rfl, by simp⟩
  | succ count ih =>
    obtain ⟨⟨p, mid⟩, hp, h⟩ := exists_of_bind_eq_ok h
    obtain ⟨⟨others, last⟩, hothers, h⟩ := exists_of_bind_eq_ok h
    cases h
    obtain ⟨hlength, hgrid⟩ := ih hothers
    exact ⟨congrArg Nat.succ hlength, List.forall_mem_cons.mpr
      ⟨isGridProfile_of_randomStart hg hrange hp, hgrid⟩⟩

end

/-- Shares are drawn if all but the last are answered, as long as anything is left. -/
theorem exists_answers_drawShares {counts : List Nat} (hne : counts ≠ []) :
    ∃ answers, ∀ rest, drawShares DrawSource.replay counts.length counts.sum (answers ++ rest)
      = some (counts, rest) := by
  induction counts with
  | nil => exact absurd rfl hne
  | cons k counts ih =>
    cases counts with
    -- the last strategy takes the rest, whatever it is
    | nil => exact ⟨[], fun rest => rfl⟩
    | cons j counts =>
      cases hsum : (k :: j :: counts).sum with
      | zero =>
        -- nothing is asked for, and all shares are zero
        have hzero : k :: j :: counts = List.replicate (counts.length + 2) 0 :=
          List.eq_replicate_iff.mpr ⟨rfl, List.sum_eq_zero_iff.mp hsum⟩
        exact ⟨[], fun rest => by rw [hzero, List.length_replicate]; rfl⟩
      | succ left =>
        obtain ⟨answers, hanswers⟩ := ih (List.cons_ne_nil j counts)
        rw [List.sum_cons] at hsum
        refine ⟨k :: answers, fun rest => drawShares_eq_some_iff.mpr
          ⟨k, answers ++ rest, j :: counts, if_pos (by omega), ?_, rfl⟩⟩
        have hrest : left + 1 - k = (j :: counts).sum := by omega
        rw [hrest]
        exact hanswers rest

theorem exists_answers_drawAllShares {denominator : Nat} {rows : List (List Nat)}
    (hrows : ∀ row ∈ rows, row ≠ [] ∧ row.sum = denominator) :
    ∃ answers, ∀ rest, drawAllShares DrawSource.replay denominator (rows.map List.length)
      (answers ++ rest) = some (rows.flatten, rest) := by
  induction rows with
  | nil => exact ⟨[], fun rest => rfl⟩
  | cons row rows ih =>
    obtain ⟨⟨hne, hsum⟩, hrows⟩ := List.forall_mem_cons.mp hrows
    obtain ⟨first, hfirst⟩ := exists_answers_drawShares hne
    obtain ⟨others, hothers⟩ := ih hrows
    refine ⟨first ++ others, fun rest => drawAllShares_eq_some_iff.mpr
      ⟨row, others ++ rest, rows.flatten, ?_, hothers rest, rfl⟩⟩
    rw [← hsum, List.append_assoc]
    exact hfirst (others ++ rest)

/-- The rows of a profile on the grid are the weights of shares. -/
theorem IsGridProfile.map_sharesOf {g : Game} {denominator : Nat} {p : Profile}
    (h : IsGridProfile g denominator p) (hpos : 0 < denominator) {row : List Rat}
    (hrow : row ∈ p.rows) :
    (row.map (sharesOf denominator)).map (weightOf denominator) = row := by
  rw [List.map_map, List.map_congr_left (g := id) fun w hw => ?_, List.map_id]
  have hvalue : w ∈ p.values := by
    rw [Profile.values, ← StrategyTable.flatten_rows]
    exact List.mem_flatten.mpr ⟨row, hrow, hw⟩
  exact weightOf_sharesOf hpos ((h.isNormalized row hrow).1 w hw) (h.isOnGrid w hvalue)

/-- **Every profile on the grid is drawn** from some answers. -/
theorem IsGridProfile.exists_answers {g : Game} {denominator : Nat} {p : Profile}
    (h : IsGridProfile g denominator p) (hplayers : g.shape ≠ []) (hpos : 0 < denominator) :
    ∃ answers, randomStart g denominator DrawSource.replay answers = .ok (p, []) := by
  have hcounts : ∀ counts ∈ p.rows.map (List.map (sharesOf denominator)),
      counts ≠ [] ∧ counts.sum = denominator := by
    refine List.forall_mem_map.mpr fun row hrow => ?_
    have hsum : (row.map (sharesOf denominator)).sum = denominator := by
      rw [← isDistribution_map_weightOf hpos, h.map_sharesOf hpos hrow]
      exact h.isNormalized row hrow
    refine ⟨fun hnil => ?_, hsum⟩
    rw [hnil, List.sum_nil] at hsum
    omega
  have hlengths : (p.rows.map (List.map (sharesOf denominator))).map List.length = g.shape := by
    rw [List.map_map, ← h.shape_eq]
    exact (List.map_congr_left fun row _ => List.length_map _).trans p.weights.map_length_rows
  have hweights : (p.rows.map (List.map (sharesOf denominator))).flatten.map (weightOf denominator)
      = p.values := by
    rw [List.map_flatten, List.map_map, List.map_congr_left (g := id) fun row hrow => ?_,
      List.map_id, Profile.rows, StrategyTable.flatten_rows, Profile.values]
    exact h.map_sharesOf hpos hrow
  obtain ⟨answers, hanswers⟩ := exists_answers_drawAllShares hcounts
  have hdrawn := hanswers []
  rw [List.append_nil, hlengths] at hdrawn
  refine ⟨answers, randomStart_eq_ok hdrawn ?_⟩
  rw [hweights, ← h.shape_eq]
  exact Profile.ofValues_values (h.shape_eq ▸ hplayers) h.isNormalized

/-! ## §6. The grid -/

namespace Random

theorem drawFrom?_lt {words : WordStream} {r fuel position k next : Nat} (hr : 0 < r)
    (h : drawFrom? words r fuel position = some (k, next)) : k < r := by
  induction fuel generalizing position with
  | zero => cases h
  | succ fuel ih =>
    simp only [drawFrom?] at h
    split at h
    · cases h
      exact Nat.div_lt_of_lt_mul (Nat.mul_lt_mul_of_pos_right (words position).toNat_lt_size hr)
    · exact ih h

/-- Draws from words are in the range asked for. -/
theorem inRange_draw? (words : WordStream) : DrawSource.InRange (draw? words) := by
  intro position max k next hmax h
  rw [draw?] at h
  split at h
  · next hfull =>
    cases h
    have hlt := (words position).toNat_lt_size
    omega
  · exact Nat.le_of_lt_succ (drawFrom?_lt (Nat.succ_pos max) h)

end Random

/-- **Starts from a stream of words**, as many as are asked for, are on the grid. -/
theorem isGridProfile_of_words {g : Game} {denominator count position next : Nat}
    {words : Random.WordStream} {ps : List Profile} (hg : AdmitsStarts g denominator)
    (h : Capacity.randomStarts g denominator (Random.draw? words) count position
      = .ok (ps, next)) :
    ps.length = count ∧ ∀ p ∈ ps, IsGridProfile g denominator p := by
  rw [Capacity.randomStarts] at h
  split at h
  · exact isGridProfile_of_randomStarts hg (Random.inRange_draw? words) h
  · cases h

theorem DrawSource.inRange_replay : replay.InRange := by
  intro state max share next _ h
  cases state with
  | nil => cases h
  | cons k rest =>
    rw [replay] at h
    split at h
    · next hk =>
      cases h
      exact hk
    · cases h

/-- **Random starts are the profiles on the grid.**  Of every game whose players have
strategies, with every denominator that is a word: from every source that answers within the
range asked for, a start is drawn, no sum or difference of shares leaves the words on the way,
and the start is a valid profile on the grid.  The guarded call gives it too, unless the game has
more than `Capacity.maxWeights` strategies: a start of so many weights is a fault there.  And every
valid profile on the grid is drawn from some answers within the ranges asked for. -/
theorem randomStart_grid (g : Game) (hplayers : g.shape ≠ []) (hstrategies : 0 ∉ g.shape)
    (denominator : UInt32) (hpos : 0 < denominator) :
    (∀ {σ : Type} (draw : DrawSource σ), draw.InRange → draw.Answers → ∀ state,
      ∃ counts p next, wordAllShares? draw denominator g.shape state = some (counts, next)
        ∧ randomStart g denominator.toNat draw state = .ok (p, next)
        ∧ p.values = counts.map (fun k => mkRat k.toNat denominator.toNat)
        ∧ IsGridProfile g denominator.toNat p
        ∧ (g.shape.size ≤ Capacity.maxWeights →
          Capacity.randomStarts g denominator.toNat draw 1 state = .ok ([p], next)))
    ∧ DrawSource.replay.InRange
    ∧ ∀ p, IsGridProfile g denominator.toNat p →
      ∃ answers, randomStart g denominator.toNat DrawSource.replay answers = .ok (p, []) := by
  have hword := denominator.toNat_lt_size
  have hg : AdmitsStarts g denominator.toNat :=
    ⟨hplayers, hstrategies, UInt32.lt_iff_toNat_lt.mp hpos, hword⟩
  refine ⟨?_, DrawSource.inRange_replay, fun p hp => hp.exists_answers hplayers hg.pos⟩
  intro σ draw hrange hanswers state
  obtain ⟨shares, next, hshares⟩ := exists_drawAllShares hanswers hword g.shape state
  obtain ⟨p, hp, hvalues, hgrid⟩ := exists_randomStart_eq_ok hg hrange hshares
  refine ⟨_, p, next, wordAllShares?_eq_some hrange hshares, hp, ?_, hgrid, fun hsize => ?_⟩
  · rw [hvalues, List.map_map]
    refine List.map_congr_left fun k hk => ?_
    have hle := le_of_mem_of_drawAllShares hrange hstrategies hword hshares hk
    rw [Function.comp_apply, UInt32.toNat_ofNat_of_lt' (by omega)]
    rfl
  · rw [Capacity.randomStarts, if_pos (Or.inr hsize), randomStarts, hp]
    rfl

/-- The source that counts up, and answers the remainder of its count. -/
def countUp : DrawSource Nat := fun state max => some (state % (max + 1), state + 1)

theorem inRange_countUp : countUp.InRange := by
  intro state max share next _ h
  cases h
  exact Nat.le_of_lt_succ (Nat.mod_lt state (Nat.succ_pos max))

/-- Row plays every strategy, Column hardly ever Right. -/
def hardlyEverRight : Profile := ⟨[3, 2], ⟨#v[1 / 6, 1 / 3, 1 / 2, 5 / 6, 1 / 6]⟩⟩

theorem isGridProfile_hardlyEverRight :
    IsGridProfile ClassicGame.dominantRow.game.toGame 6 hardlyEverRight where
  shape_eq := by decide +kernel
  isNormalized := by decide +kernel
  isOnGrid := by
    have hwhole : ∀ w ∈ hardlyEverRight.values, w = ((w * 6).num : Rat) * (1 / (6 : Nat)) := by
      decide +kernel
    exact fun w hw => ⟨_, hwhole w hw⟩

/-- Counting from four, Row's first strategy gets four sixths and the second the other two;
Column's first gets all. -/
theorem randomStart_grid_dominantRow :
    (∃ p, randomStart ClassicGame.dominantRow.game.toGame 6 countUp 4 = .ok (p, 7)
      ∧ p.values = [4 / 6, 2 / 6, 0, 1, 0]
      ∧ IsGridProfile ClassicGame.dominantRow.game.toGame 6 p
      ∧ Capacity.randomStarts ClassicGame.dominantRow.game.toGame 6 countUp 1 4 = .ok ([p], 7))
    ∧ ∃ answers, randomStart ClassicGame.dominantRow.game.toGame 6 DrawSource.replay answers
      = .ok (hardlyEverRight, []) := by
  have hshape : ClassicGame.dominantRow.game.toGame.shape = [3, 2] := by decide +kernel
  have hdrawn : wordAllShares? countUp 6 [3, 2] 4 = some ([4, 2, 0, 6, 0], 7) := by decide +kernel
  obtain ⟨hdraws, -, hreached⟩ := randomStart_grid ClassicGame.dominantRow.game.toGame
    (by rw [hshape]; decide) (by rw [hshape]; decide) 6 (by decide)
  obtain ⟨counts, p, next, hcounts, hp, hvalues, hgrid, hcapacity⟩ :=
    hdraws countUp inRange_countUp (fun _ _ _ => rfl) 4
  rw [hshape, hdrawn] at hcounts
  cases hcounts
  refine ⟨⟨p, hp, hvalues.trans (by decide +kernel), hgrid, hcapacity ?_⟩,
    hreached _ isGridProfile_hardlyEverRight⟩
  rw [hshape]
  decide

end SimplicialNash
