/-
  SimplicialNash.Proofs.Game.Json
  ───────────────────────────────
  **A game that is written as JSON is read back.**

  The text of a game is what the JSON package writes for the value
  `TableGame.jsonValue`, which holds nothing but strings and is nested four containers
  deep (`TableGame.isStrings_jsonValue`).  A package that reads back what it writes gives
  this value again; the layout of a game file is found in it (`GameFile.read?_jsonValue`),
  and each payoff is the rational that it was written from.

  The last stage builds the table anew, with strides that are counted up, and for this the
  pure profiles have to be counted.  That has been done for all games that are built from
  their data, from matrices, from a text in either format, or from such games with other
  names (`TableGame.IsBuilt`), and the strides are the ones that were written down there
  (`TableGame.IsBuilt.exists_builtWith`).

  Main statement: `readJsonGame_json`.
-/
import SimplicialNash.Game.Reader
import SimplicialNash.Proofs.Game.Numbering
import SimplicialNash.Proofs.Json.Written
import SimplicialNash.Proofs.Number.Literal

namespace SimplicialNash

open SimplicialNash.Json SimplicialNash.Number

/-! ## §1. Written games -/

namespace Json.Value

variable {keys : List (Option (List Char))} {vs : List Value} {n : Nat}

theorem allStrings_eq_true (h : ∀ v ∈ vs, v.isStrings = true) : allStrings vs = true := by
  induction vs with
  | nil => rfl
  | cons v vs ih =>
    obtain ⟨hv, hvs⟩ := List.forall_mem_cons.mp h
    rw [allStrings, hv, ih hvs, Bool.and_self]

theorem isStrings_object (hkeys : areFieldNames keys = true) (hlength : keys.length = vs.length)
    (h : ∀ v ∈ vs, v.isStrings = true) : (object keys vs).isStrings = true := by
  rw [isStrings, hkeys, hlength, beq_self_eq_true, allStrings_eq_true h, Bool.and_self]
  rfl

theorem depthOfAll_le (h : ∀ v ∈ vs, v.depth ≤ n) : depthOfAll vs ≤ n := by
  induction vs with
  | nil => exact Nat.zero_le n
  | cons v vs ih =>
    obtain ⟨hv, hvs⟩ := List.forall_mem_cons.mp h
    exact Nat.max_le.mpr ⟨hv, ih hvs⟩

theorem depth_array_le (h : ∀ v ∈ vs, v.depth ≤ n) : (array vs).depth ≤ n + 1 :=
  Nat.succ_le_succ (depthOfAll_le h)

theorem depth_object_le (h : ∀ v ∈ vs, v.depth ≤ n) : (object keys vs).depth ≤ n + 1 :=
  Nat.succ_le_succ (depthOfAll_le h)

end Json.Value

/-- Texts in an array are a value of strings, one container deep. -/
theorem isStrings_texts {α : Type} (f : α → List Char) (xs : List α) :
    (Value.array (xs.map fun x => textValue (f x))).isStrings = true
      ∧ (Value.array (xs.map fun x => textValue (f x))).depth ≤ 1 :=
  ⟨Value.allStrings_eq_true (List.forall_mem_map.mpr fun _ _ => rfl),
    Value.depth_array_le (List.forall_mem_map.mpr fun _ _ => Nat.le_refl 0)⟩

theorem PlayerInfo.isStrings_jsonValue (p : PlayerInfo) :
    p.jsonValue.isStrings = true ∧ p.jsonValue.depth ≤ 2 := by
  obtain ⟨hstrings, hdepth⟩ := isStrings_texts String.toList p.strategies
  constructor
  · refine Value.isStrings_object (by decide) rfl (List.forall_mem_cons.mpr ⟨rfl, ?_⟩)
    exact List.forall_mem_singleton.mpr hstrings
  · refine Value.depth_object_le (List.forall_mem_cons.mpr ⟨Nat.zero_le 1, ?_⟩)
    exact List.forall_mem_singleton.mpr hdepth

/-- **The value of a game** holds nothing but strings, and is nested far less deeply than a value
may be. -/
theorem TableGame.isStrings_jsonValue (g : TableGame) :
    g.jsonValue.isStrings = true ∧ g.jsonValue.depth ≤ 4 := by
  have hplayers : ∀ v ∈ g.players.map PlayerInfo.jsonValue, v.isStrings = true ∧ v.depth ≤ 2 :=
    List.forall_mem_map.mpr fun p _ => p.isStrings_jsonValue
  have hpayoffs : ∀ v ∈ g.payoffs.toList.map payoffsValue, v.isStrings = true ∧ v.depth ≤ 1 :=
    List.forall_mem_map.mpr fun row _ => isStrings_texts rationalText row
  constructor
  · refine Value.isStrings_object (by decide) rfl (List.forall_mem_cons.mpr ⟨rfl, ?_⟩)
    refine List.forall_mem_cons.mpr ⟨?_, List.forall_mem_singleton.mpr ?_⟩
    · exact Value.allStrings_eq_true fun v hv => (hplayers v hv).1
    · exact Value.allStrings_eq_true fun v hv => (hpayoffs v hv).1
  · refine Value.depth_object_le (List.forall_mem_cons.mpr ⟨Nat.zero_le 3, ?_⟩)
    refine List.forall_mem_cons.mpr ⟨?_, List.forall_mem_singleton.mpr ?_⟩
    · exact Value.depth_array_le fun v hv => (hplayers v hv).2
    · exact Nat.le_succ_of_le (Value.depth_array_le fun v hv => (hpayoffs v hv).2)

/-! ## §2. Reading what is written -/

/-- What is read one by one is read in order. -/
theorem mapM_map_eq_pure {m : Type → Type} [Monad m] [LawfulMonad m] {α β γ : Type}
    {w : α → β} {r : β → m γ} {f : α → γ} (h : ∀ x, r (w x) = pure (f x)) (xs : List α) :
    (xs.map w).mapM r = pure (xs.map f) := by
  induction xs with
  | nil => exact List.mapM_nil
  | cons x xs ih => simp only [List.map_cons, List.mapM_cons, h, ih, pure_bind]

namespace GameFile

theorem string?_textValue (s : String) : string? (textValue s.toList) = some s := by
  show some (String.ofList s.toList) = _
  rw [String.ofList_toList]

/-- The fields of an object that is written, by name. -/
theorem asRecord?_object (names : List String) (vs : List Value) :
    (Value.object (fieldNames names) vs).asRecord? = some ((names.map String.toList).zip vs) := by
  unfold fieldNames Value.asRecord?
  dsimp only
  have hnames := mapM_map_eq_pure (m := Option) (r := id) (f := String.toList)
    (w := fun name => some name.toList) (fun _ => rfl) names
  rw [hnames]
  rfl

theorem readPlayer?_jsonValue (p : PlayerInfo) : readPlayer? p.jsonValue = some p := by
  have hstrategies : (p.strategies.map fun s => textValue s.toList).mapM string?
      = some p.strategies := by
    rw [mapM_map_eq_pure (f := id) string?_textValue, List.map_id]
    rfl
  unfold readPlayer? PlayerInfo.jsonValue
  dsimp only
  rw [asRecord?_object]
  show player? (textValue p.name.toList) (.array (p.strategies.map fun s => textValue s.toList)) = _
  unfold player?
  simp only [Value.asArray?, Option.bind_eq_bind, Option.bind_some, string?_textValue, hstrategies,
    Option.pure_def]

theorem payoff?_textValue (cs : List Char) : payoff? (textValue cs) = some (textValue cs) := rfl

/-- **The layout of a game file** is found in a game that is written. -/
theorem read?_jsonValue (g : TableGame) :
    read? g.jsonValue = some ⟨g.title, g.players,
      g.payoffs.toList.map fun row => row.map fun q => textValue (rationalText q)⟩ := by
  have hplayers : (g.players.map PlayerInfo.jsonValue).mapM readPlayer? = some g.players := by
    rw [mapM_map_eq_pure (f := id) readPlayer?_jsonValue, List.map_id]
    rfl
  have hrow : ∀ row : List Rat,
      (payoffsValue row).asArray?.bind (fun items => items.mapM payoff?)
        = some (row.map fun q => textValue (rationalText q)) := fun row =>
    mapM_map_eq_pure (fun q => payoff?_textValue (rationalText q)) row
  have hpayoffs := mapM_map_eq_pure
    (r := fun row : Value => row.asArray?.bind fun items => items.mapM payoff?) hrow
    g.payoffs.toList
  unfold read? TableGame.jsonValue
  dsimp only
  rw [asRecord?_object]
  show (string? (textValue g.title.toList)).bind (fun title => file? title
    (.array (g.players.map PlayerInfo.jsonValue)) (.array (g.payoffs.toList.map payoffsValue))) = _
  rw [string?_textValue, Option.bind_some]
  unfold file?
  simp only [Value.asArray?, Option.bind_eq_bind, Option.bind_some] at hpayoffs ⊢
  rw [hplayers, Option.bind_some, hpayoffs]
  rfl

end GameFile

section

variable {P : Package} {g g' : TableGame}

theorem readPayoff_textValue (q : Rat) : readPayoff P (textValue (rationalText q)) = .ok q :=
  readGameNumber_eq_ok (readRational?_rationalText q)

/-- **Reading what is written** builds the table anew. -/
theorem readJsonGame_of_read?_eq {cs : List Char} (h : P.read? cs = some g.jsonValue) :
    readJsonGame P cs = TableGame.ofPayoffs g.title g.players g.payoffs.toList := by
  have hpayoffs : (g.payoffs.toList.map fun row => row.map fun q => textValue (rationalText q)).mapM
      (fun row => row.mapM (readPayoff P)) = Except.ok (ε := GameError) g.payoffs.toList := by
    rw [mapM_map_eq_pure (f := id) fun row => ?_]
    · rw [List.map_id]
      rfl
    · rw [mapM_map_eq_pure (f := id) readPayoff_textValue, List.map_id]
      rfl
  unfold readJsonGame
  rw [h, Option.bind_some, GameFile.read?_jsonValue]
  dsimp only
  rw [hpayoffs, ok_bind]

/-- A package that reads back what it writes can write every game. -/
theorem Json.Package.ReadsBack.exists_json (hP : P.ReadsBack) (g : TableGame) :
    ∃ text, g.json P = .ok text
      ∧ readJsonGame P text.toList = TableGame.ofPayoffs g.title g.players g.payoffs.toList := by
  have hdepth : g.jsonValue.depth ≤ Value.maxNesting :=
    Nat.le_trans g.isStrings_jsonValue.2 (by decide)
  obtain ⟨cs, hwrite, hread⟩ := hP g.jsonValue g.isStrings_jsonValue.1 hdepth
  refine ⟨String.ofList cs, by rw [TableGame.json, hwrite], ?_⟩
  rw [String.toList_ofList]
  exact readJsonGame_of_read?_eq hread

/-! ## §3. Games that are built -/

/-- How a game comes about: from its data, from matrices, from a text in either format, or
from another such game with other names. -/
inductive TableGame.IsBuilt (P : Package) : TableGame → Prop
  | ofPayoffs {g : TableGame} {title : String} {players : List PlayerInfo}
      {payoffs : List (List Rat)} (h : TableGame.ofPayoffs title players payoffs = .ok g) :
      IsBuilt P g
  | bimatrix {g : TableGame} {title : String} {row column : List (List Int)}
      (h : TableGame.bimatrix title row column = .ok g) : IsBuilt P g
  | nfg {g : TableGame} {cs : List Char} (h : Nfg.readGame cs = .ok g) : IsBuilt P g
  | json {g : TableGame} {cs : List Char} (h : readJsonGame P cs = .ok g) : IsBuilt P g
  | withPlayers {g g' : TableGame} {players : List PlayerInfo} (hg : IsBuilt P g)
      (h : g.withPlayers players = .ok g') : IsBuilt P g'

namespace TableGame

theorem exists_ofPayoffs_of_readJsonGame {cs : List Char} (h : readJsonGame P cs = .ok g) :
    ∃ title players payoffs, TableGame.ofPayoffs title players payoffs = .ok g := by
  unfold readJsonGame at h
  split at h
  · cases h
  · obtain ⟨payoffs, -, hof⟩ := exists_of_bind_eq_ok h
    exact ⟨_, _, payoffs, hof⟩

theorem exists_ofPayoffs_of_nfg {cs : List Char} (h : Nfg.readGame cs = .ok g) :
    ∃ title players payoffs, TableGame.ofPayoffs title players payoffs = .ok g := by
  unfold Nfg.readGame at h
  split at h
  · cases h
  · unfold Nfg.readTokens at h
    obtain ⟨⟨title, _⟩, -, h⟩ := exists_of_bind_eq_ok h
    obtain ⟨_, -, h⟩ := exists_of_bind_eq_ok h
    obtain ⟨⟨names, _⟩, -, h⟩ := exists_of_bind_eq_ok h
    obtain ⟨_, -, h⟩ := exists_of_bind_eq_ok h
    obtain ⟨⟨players, _⟩, -, h⟩ := exists_of_bind_eq_ok h
    dsimp only at h
    split at h
    · cases h
    · split at h
      · cases h
      · obtain ⟨⟨payoffs, _⟩, -, h⟩ := exists_of_bind_eq_ok h
        dsimp only at h
        split at h
        · cases h
        · exact ⟨title, players, payoffs, h⟩

/-- **A game that is built** has been given its strides and its rows. -/
theorem IsBuilt.exists_builtWith (h : g.IsBuilt P) :
    ∃ strides payoffs, BuiltWith strides payoffs g := by
  induction h with
  | ofPayoffs h => exact ⟨_, _, .ofPayoffs h⟩
  | bimatrix h => exact ⟨_, _, .bimatrix h⟩
  | nfg h =>
    obtain ⟨_, _, payoffs, hof⟩ := exists_ofPayoffs_of_nfg h
    exact ⟨_, payoffs, .ofPayoffs hof⟩
  | json h =>
    obtain ⟨_, _, payoffs, hof⟩ := exists_ofPayoffs_of_readJsonGame h
    exact ⟨_, payoffs, .ofPayoffs hof⟩
  | withPlayers _ h ih =>
    obtain ⟨strides, payoffs, hg⟩ := ih
    exact ⟨strides, payoffs, .withPlayers hg h⟩

end TableGame

/-- **A game that is written as JSON is read back**, whichever way it was built, by any package
that reads back what it writes.  What is read is a table that is built anew from what is in the
text, and it has the title, the players, the payoffs and the strides that the game was given. -/
theorem readJsonGame_json (hP : P.ReadsBack) (h : g.IsBuilt P) :
    ∃ strides payoffs text g', TableGame.BuiltWith strides payoffs g ∧ g.json P = .ok text
      ∧ readJsonGame P text.toList = .ok g'
      ∧ TableGame.BuiltWith ((PlayerInfo.shape g.players).stridesFrom 1) payoffs g'
      ∧ g'.title = g.title ∧ g'.players = g.players ∧ g'.strides = strides
      ∧ g'.payoffs = payoffs.toArray ∧ g' = g := by
  obtain ⟨strides, payoffs, hg⟩ := h.exists_builtWith
  obtain ⟨hstrides, rfl, hcount⟩ := hg.kept
  obtain ⟨text, htext, hread⟩ := hP.exists_json g
  have hself := TableGame.ofPayoffs_self hcount
  exact ⟨strides, _, text, g, hg, htext, hread.trans hself, .ofPayoffs hself, rfl, rfl, hstrides,
    g.payoffs.toArray_toList.symm, rfl⟩

theorem readJsonGame_json_odds :
    (∃ g text, TableGame.ofPayoffs "Odds \"and\" ends\n"
        [⟨"R\\w", ["\x01", "\t"]⟩, ⟨"Süd", ["", "e2/3"]⟩]
        [[1 / 2, 0], [-3, 4], [2 / 3, -7 / 5], [0, 1]] = .ok g
      ∧ g.json standard = .ok text ∧ readJsonGame standard text.toList = .ok g)
    ∧ ∃ g text, TableGame.bimatrix "" [[1, 2, 3], [4, 5, 6]] [[0, 0, 0], [7, 8, 9]] = .ok g
      ∧ g.json standard = .ok text ∧ readJsonGame standard text.toList = .ok g
      ∧ g.strides = [1, 2] := by
  constructor
  · have hdata : TableGame.dataError? [⟨"R\\w", ["\x01", "\t"]⟩, ⟨"Süd", ["", "e2/3"]⟩]
        [[1 / 2, 0], [-3, 4], [2 / 3, -7 / 5], [0, 1]] = none := by
      decide +kernel
    obtain ⟨g, hg⟩ := TableGame.exists_ofPayoffs_eq_ok "Odds \"and\" ends\n" hdata
    obtain ⟨-, -, text, g', -, htext, hread, -, -, -, -, -, rfl⟩ :=
      readJsonGame_json readsBack_standard (.ofPayoffs hg)
    exact ⟨g', text, hg, htext, hread⟩
  · have hrow : TableGame.IsMatrix 2 3 [[1, 2, 3], [4, 5, 6]] := by decide
    have hcolumn : TableGame.IsMatrix 2 3 [[0, 0, 0], [7, 8, 9]] := by decide
    obtain ⟨g, hg⟩ := TableGame.exists_bimatrix_eq_ok "" (by decide) (by decide) hrow hcolumn
      (by decide)
    obtain ⟨-, -, text, g', -, htext, hread, -, -, -, -, -, rfl⟩ :=
      readJsonGame_json readsBack_standard (.bimatrix hg)
    exact ⟨g', text, hg, htext, hread, (TableGame.BuiltWith.bimatrix hg).kept.1⟩

end

end SimplicialNash
