/-
  SimplicialNash.Proofs.Nfg.File
  ──────────────────────────────
  **Files that list payoffs.**

  A header gives a title and players (`IsHeader`); a comment after it is passed over, and
  what follows gives the payoffs (`IsHeader.readTokens_eq`).

  A file that lists the payoffs profile by profile is read as the table of these payoffs,
  whatever the separators between its tokens, whether it gives the numbers of the
  strategies or their names, and with or without a comment (`readGame_payoffFile`).
-/
import SimplicialNash.Proofs.Nfg.Reader
import SimplicialNash.Proofs.Nfg.Token

namespace SimplicialNash.Nfg

open SimplicialNash.Number

/-! ## §1. Headers -/

/-- Tokens that give a title and players, none of whom is without strategies, and whose
pure profiles can be counted. -/
structure IsHeader (head : List Token) (title : String) (players : List PlayerInfo)
    (profiles : Nat) : Prop where
  preamble_eq : preamble head = .ok ((title, players), [])
  players_ne_nil : players ≠ []
  strategies_ne_nil : ∀ p ∈ players, p.strategies ≠ []
  countProfiles?_eq : (PlayerInfo.shape players).countProfiles? = some profiles

/-- **A comment** is passed over. -/
theorem skipComment_quotes (comment : Option String) {body : List Token}
    (h : ∀ text, body.head? ≠ some (.quoted text)) :
    skipComment (quotes comment.toList ++ body) = body := by
  cases comment with
  | some text => rfl
  | none =>
    show skipComment body = body
    unfold skipComment
    split
    · next text rest => exact absurd rfl (h text)
    · rfl

/-- **After a header and a comment** the payoffs follow. -/
theorem IsHeader.readTokens_eq {head body : List Token} {title : String}
    {players : List PlayerInfo} {profiles : Nat} (h : IsHeader head title players profiles)
    (comment : Option String) (hbody : ∀ text, body.head? ≠ some (.quoted text)) :
    readTokens (head ++ quotes comment.toList ++ body) = readTable title players profiles body := by
  have hpreamble := keepsRest_preamble _ _ _ h.preamble_eq (quotes comment.toList ++ body)
  rw [List.append_assoc, readTokens_of_preamble hpreamble h.players_ne_nil h.countProfiles?_eq,
    List.nil_append, skipComment_quotes comment hbody]

/-- Words are no quoted texts. -/
theorem head?_flatMap_words (rows : List (List (List Char))) (text : List Char) :
    (rows.flatMap words).head? ≠ some (.quoted text) := by
  intro hhead
  obtain ⟨row, -, hrow⟩ := List.mem_flatMap.mp (List.mem_of_mem_head? hhead)
  obtain ⟨_, -, hword⟩ := List.mem_map.mp hrow
  cases hword

/-- **Rows of numbers** after a header are the rows of a table. -/
theorem IsHeader.readTokens_words {head : List Token} {title : String}
    {players : List PlayerInfo} {rows : List (List (List Char))} {payoffs : List (List Rat)}
    (h : IsHeader head title players rows.length) (comment : Option String)
    (hrows : List.Forall₂ (List.Forall₂ Denotes) rows payoffs)
    (hwidth : ∀ row ∈ rows, row.length = players.length) :
    readTokens (head ++ quotes comment.toList ++ rows.flatMap words)
        = TableGame.ofPayoffs title players payoffs
      ∧ ∃ g, TableGame.ofPayoffs title players payoffs = .ok g := by
  constructor
  · rw [h.readTokens_eq comment (head?_flatMap_words rows), readTable,
      payoffRows_words hrows hwidth]
    rfl
  · refine TableGame.exists_ofPayoffs_eq_ok title (TableGame.dataError?_eq_none_iff.mpr
      ⟨h.players_ne_nil, h.strategies_ne_nil, hrows.length_eq ▸ h.countProfiles?_eq, ?_⟩)
    clear h
    induction hrows with
    | nil => exact fun _ hmem => absurd hmem List.not_mem_nil
    | cons hd _ ih =>
      obtain ⟨hrow, hrest⟩ := List.forall_mem_cons.mp hwidth
      exact List.forall_mem_cons.mpr ⟨hd.length_eq.symm.trans hrow, ih hrest⟩

/-! ## §2. Files with payoffs -/

/-- The players of a file, each with the number of the strategies or with their names. -/
inductive Roster where
  | counted (players : List (String × Nat))
  | named (players : List PlayerInfo)

namespace Roster

def players : Roster → List PlayerInfo
  | .counted ps => ps.map fun (name, count) => .numbered name count
  | .named ps => ps

/-- What stands in the braces of the strategies. -/
def strategyTokens : Roster → List Token
  | .counted ps => words (ps.map fun (_, count) => digits count)
  | .named ps => ps.flatMap fun p => braced (quotes p.strategies)

/-- **The strategies of all players** are read with the names. -/
theorem strategies_strategyTokens {r : Roster} (hne : r.players ≠ [])
    (hcounts : ∀ p ∈ r.players, p.strategies.length < UInt64.size) (rest : List Token) :
    strategies (r.players.map PlayerInfo.name) (r.strategyTokens ++ .closing :: rest)
      = .ok (r.players, rest) := by
  cases r with
  | counted ps =>
    have hsizes : ∀ n ∈ ps.map Prod.snd, n < UInt64.size := by
      intro n hn
      obtain ⟨⟨name, count⟩, hp, rfl⟩ := List.mem_map.mp hn
      have hcount := hcounts _ (List.mem_map_of_mem hp)
      simpa [PlayerInfo.numbered] using hcount
    have hread := countsUntilClosing_words hsizes rest
    have hplayers : List.zipWith PlayerInfo.numbered ((players (.counted ps)).map PlayerInfo.name)
        (ps.map Prod.snd) = players (.counted ps) := by
      rw [players, List.map_map, List.zipWith_map, List.zipWith_self]
      rfl
    rw [List.map_map] at hread
    unfold strategies
    split
    · next more hopening =>
      -- the first token is a word
      have hps : ps ≠ [] := fun hnil => hne (hnil ▸ rfl)
      obtain ⟨p, ps, rfl⟩ := List.exists_cons_of_ne_nil hps
      cases (List.cons.inj hopening).1
    · show (countsUntilClosing (words (ps.map (digits ∘ Prod.snd)) ++ .closing :: rest) >>= _) = _
      rw [hread, ok_bind]
      dsimp only
      rw [hplayers, if_neg]
      simp [players]
  | named ps =>
    have hread := quotedLists_braced (ps.map PlayerInfo.strategies) rest
    have hplayers : List.zipWith PlayerInfo.mk (ps.map PlayerInfo.name)
        (ps.map PlayerInfo.strategies) = ps := by
      rw [List.zipWith_map, List.zipWith_self]
      exact ps.map_id
    rw [List.flatMap_map] at hread
    unfold strategies
    split
    · show (quotedLists false (ps.flatMap (fun p => braced (quotes p.strategies))
        ++ .closing :: rest) >>= _) = _
      rw [hread, ok_bind]
      dsimp only
      rw [players, hplayers, if_neg]
      simp
    · next hopening =>
      -- the first token is a brace
      obtain ⟨p, ps, rfl⟩ := List.exists_cons_of_ne_nil hne
      exact absurd rfl (hopening _)

end Roster

/-- A file with one row of payoffs for each pure profile. -/
structure PayoffFile where
  /-- Whether numbers are announced as decimals. -/
  decimal : Bool
  title : String
  roster : Roster
  comment : Option String
  payoffs : List (List Rat)
  players_ne_nil : roster.players ≠ []
  strategies_ne_nil : ∀ p ∈ roster.players, p.strategies ≠ []
  profileCount_lt : (PlayerInfo.shape roster.players).profileCount < UInt64.size
  length_payoffs : payoffs.length = (PlayerInfo.shape roster.players).profileCount
  length_row : ∀ row ∈ payoffs, row.length = roster.players.length

namespace PayoffFile

/-- The title and the players. -/
def headTokens (f : PayoffFile) : List Token :=
  [.word ['N', 'F', 'G'], .word ['1'], .word [if f.decimal then 'D' else 'R'],
    .quoted f.title.toList] ++ braced (quotes (f.roster.players.map PlayerInfo.name))
    ++ braced f.roster.strategyTokens

/-- All tokens: the header, the comment if there is one, and the payoffs row by row. -/
def tokens (f : PayoffFile) : List Token :=
  f.headTokens ++ quotes f.comment.toList
    ++ (f.payoffs.map fun row => row.map rationalText).flatMap words

theorem isHeader_headTokens (f : PayoffFile) :
    IsHeader f.headTokens f.title f.roster.players f.payoffs.length where
  preamble_eq := by
    have hcounts : ∀ p ∈ f.roster.players, p.strategies.length < UInt64.size := fun p hp =>
      Nat.lt_of_le_of_lt (Shape.le_profileCount (PlayerInfo.zero_notMem_shape f.strategies_ne_nil)
        (List.mem_map_of_mem hp)) f.profileCount_lt
    have hheader : ∀ rest, header (.word ['N', 'F', 'G'] :: .word ['1']
        :: .word [if f.decimal then 'D' else 'R'] :: .quoted f.title.toList :: rest)
        = .ok (f.title, rest) := by
      intro rest
      cases f.decimal <;>
      · show Except.ok (String.ofList f.title.toList, rest) = _
        rw [String.ofList_toList]
    have hstrategies := Roster.strategies_strategyTokens f.players_ne_nil hcounts []
    simp only [preamble, headTokens, braced, List.cons_append, List.append_assoc,
      List.nil_append]
    rw [hheader, ok_bind]
    dsimp only
    rw [opening, ok_bind]
    dsimp only
    rw [quotedUntilClosing_quotes, ok_bind]
    dsimp only
    rw [opening, ok_bind]
    dsimp only
    rw [hstrategies, ok_bind]
  players_ne_nil := f.players_ne_nil
  strategies_ne_nil := f.strategies_ne_nil
  countProfiles?_eq := by
    rw [f.length_payoffs]
    exact Shape.countProfiles?_eq_some (PlayerInfo.zero_notMem_shape f.strategies_ne_nil)
      f.profileCount_lt

end PayoffFile

/-! ## §3. Words that can be written -/

theorem isWordChar_of_isDigit {c : Char} (h : isDigit c = true) : isWordChar c = true := by
  have hcomma : c ≠ ',' := ne_of_isDigit h (by decide)
  have hopening : c ≠ '\x7b' := ne_of_isDigit h (by decide)
  have hclosing : c ≠ '\x7d' := ne_of_isDigit h (by decide)
  have hquote : c ≠ '"' := ne_of_isDigit h (by decide)
  simp [isWordChar, isSeparator, not_isBlank_of_isDigit h, hcomma, hopening, hclosing, hquote]

theorem isWritable_digits (n : Nat) : (Token.word (digits n)).IsWritable :=
  ⟨digits_ne_nil n, fun _ hc => isWordChar_of_isDigit (isDigit_of_mem_digits hc)⟩

theorem isWritable_rationalText (q : Rat) : (Token.word (rationalText q)).IsWritable := by
  refine ⟨?_, fun c hc => ?_⟩
  · -- no digits are read as no number
    intro hnil
    have hread := readRational?_rationalText q
    rw [hnil] at hread
    cases hread
  · rcases isDigit_of_mem_rationalText hc with hd | rfl | rfl
    · exact isWordChar_of_isDigit hd
    · decide
    · decide

theorem isWritable_of_mem_words {texts : List (List Char)}
    (h : ∀ text ∈ texts, (Token.word text).IsWritable) : ∀ t ∈ words texts, t.IsWritable := by
  intro t ht
  obtain ⟨text, htext, rfl⟩ := List.mem_map.mp ht
  exact h text htext

theorem isWritable_of_mem_quotes (texts : List String) : ∀ t ∈ quotes texts, t.IsWritable := by
  intro t ht
  obtain ⟨text, -, rfl⟩ := List.mem_map.mp ht
  trivial

theorem isWritable_of_mem_braced {tokens : List Token} (h : ∀ t ∈ tokens, t.IsWritable) :
    ∀ t ∈ braced tokens, t.IsWritable := by
  refine List.forall_mem_append.mpr ⟨List.forall_mem_cons.mpr ⟨trivial, h⟩, ?_⟩
  exact List.forall_mem_singleton.mpr trivial

theorem Roster.isWritable_of_mem_strategyTokens (r : Roster) :
    ∀ t ∈ r.strategyTokens, t.IsWritable := by
  cases r with
  | counted ps =>
    refine isWritable_of_mem_words fun text htext => ?_
    obtain ⟨⟨_, n⟩, -, rfl⟩ := List.mem_map.mp htext
    exact isWritable_digits n
  | named ps =>
    intro t ht
    obtain ⟨p, -, hp⟩ := List.mem_flatMap.mp ht
    exact isWritable_of_mem_braced (isWritable_of_mem_quotes p.strategies) t hp

/-- **All tokens of a file** can be written. -/
theorem PayoffFile.isWritable_of_mem_tokens (f : PayoffFile) :
    ∀ t ∈ f.tokens, t.IsWritable := by
  have hbeginning : ∀ t ∈ ([.word ['N', 'F', 'G'], .word ['1'],
      .word [if f.decimal then 'D' else 'R'], .quoted f.title.toList] : List Token),
      t.IsWritable := by
    cases f.decimal <;> simp [Token.IsWritable] <;> decide
  have hnames := isWritable_of_mem_braced
    (isWritable_of_mem_quotes (f.roster.players.map PlayerInfo.name))
  have hstrategies := isWritable_of_mem_braced f.roster.isWritable_of_mem_strategyTokens
  have hpayoffs : ∀ t ∈ (f.payoffs.map fun row => row.map rationalText).flatMap words,
      t.IsWritable := by
    intro t ht
    obtain ⟨row, hrow, ht⟩ := List.mem_flatMap.mp ht
    obtain ⟨qs, -, rfl⟩ := List.mem_map.mp hrow
    refine isWritable_of_mem_words (fun text htext => ?_) t ht
    obtain ⟨q, -, rfl⟩ := List.mem_map.mp htext
    exact isWritable_rationalText q
  refine List.forall_mem_append.mpr ⟨List.forall_mem_append.mpr ⟨?_,
    isWritable_of_mem_quotes _⟩, hpayoffs⟩
  exact List.forall_mem_append.mpr ⟨List.forall_mem_append.mpr ⟨hbeginning, hnames⟩, hstrategies⟩

/-- **A file with payoffs** is read as the table of these payoffs, whatever separators stand
between its tokens. -/
theorem readGame_payoffFile (f : PayoffFile) {cs : List Char} (h : Spells cs f.tokens) :
    ∃ g, TableGame.ofPayoffs f.title f.roster.players f.payoffs = .ok g
      ∧ Nfg.readGame cs = .ok g := by
  let rows := f.payoffs.map fun row => row.map rationalText
  have hhead : IsHeader f.headTokens f.title f.roster.players rows.length := by
    rw [List.length_map]
    exact f.isHeader_headTokens
  have hrows : List.Forall₂ (List.Forall₂ Denotes) rows f.payoffs := by
    refine List.forall₂_map_left_iff.mpr (List.forall₂_same.mpr fun row _ => ?_)
    exact List.forall₂_map_left_iff.mpr
      (List.forall₂_same.mpr fun q _ => readRational?_rationalText q)
  have hwidth : ∀ row ∈ rows, row.length = f.roster.players.length := by
    intro row hrow
    obtain ⟨qs, hqs, rfl⟩ := List.mem_map.mp hrow
    rw [List.length_map, f.length_row qs hqs]
  obtain ⟨hread, g, hg⟩ := hhead.readTokens_words f.comment hrows hwidth
  refine ⟨g, hg, ?_⟩
  rw [readGame, h.tokens?_eq f.isWritable_of_mem_tokens]
  exact hread.trans hg

/-- A game in which the first player says when, and the second one has no choice. -/
def sayWhen : PayoffFile where
  decimal := false
  title := "Say \"when\""
  roster := .named [⟨"R\\w", ["now", "l\x7bter"]⟩, ⟨"", ["x, y"]⟩]
  comment := some "of no \\ use"
  payoffs := [[1 / 2, -3], [0, 4]]
  players_ne_nil := by decide
  strategies_ne_nil := by decide
  profileCount_lt := by decide
  length_payoffs := by decide
  length_row := by decide

theorem readGame_payoffFile_sayWhen :
    ∃ g, TableGame.ofPayoffs "Say \"when\"" [⟨"R\\w", ["now", "l\x7bter"]⟩, ⟨"", ["x, y"]⟩]
        [[1 / 2, -3], [0, 4]] = .ok g
      ∧ Nfg.readGame ("NFG 1 R \"Say \\\"when\\\"\" \x7b \"R\\\\w\" \"\" \x7d "
        ++ "\x7b \x7b \"now\" \"l\x7bter\" \x7d \x7b \"x, y\" \x7d \x7d "
        ++ "\"of no \\\\ use\" 1/2 -3 0 4 ").toList = .ok g := by
  have hspells : Spells ([] ++ spaced (sayWhen.tokens.map fun t => (t, [' '])))
      ((sayWhen.tokens.map fun t => (t, [' '])).map Prod.fst) := by
    refine spells_spaced (fun c hc => absurd hc List.not_mem_nil) fun item hitem => ?_
    obtain ⟨t, -, rfl⟩ := List.mem_map.mp hitem
    refine ⟨List.cons_ne_nil _ _, fun c hc => ?_⟩
    rw [List.mem_singleton.mp hc]
    rfl
  have htokens : (sayWhen.tokens.map fun t => (t, [' '])).map Prod.fst = sayWhen.tokens := by
    rw [List.map_map]
    exact List.map_id _
  have htext : [] ++ spaced (sayWhen.tokens.map fun t => (t, [' ']))
      = ("NFG 1 R \"Say \\\"when\\\"\" \x7b \"R\\\\w\" \"\" \x7d "
        ++ "\x7b \x7b \"now\" \"l\x7bter\" \x7d \x7b \"x, y\" \x7d \x7d "
        ++ "\"of no \\\\ use\" 1/2 -3 0 4 ").toList := by
    decide +kernel
  rw [htokens, htext] at hspells
  exact readGame_payoffFile sayWhen hspells

end SimplicialNash.Nfg
