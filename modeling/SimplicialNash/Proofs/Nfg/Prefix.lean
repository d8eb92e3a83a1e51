/-
  SimplicialNash.Proofs.Nfg.Prefix
  ────────────────────────────────
  **No file is the beginning of another.**

  Title, players and payoffs are the data of a file (`contents`), and what is left after
  them decides whether the file ends there (`finish`).  In a file that is read every player
  has a strategy, so there is at least one payoff to read, and the reader of the data finds
  their end (`delimitsAt_contents`): a file that is cut anywhere between two tokens ends too
  early (`readTokens_of_isPrefix`), and a file with more tokens does not end where it should
  (`readTokens_append_cons`).

  Main statement: `readGame_prefixFree`.
-/
import SimplicialNash.Proofs.Nfg.Reader

namespace SimplicialNash.Nfg

open SimplicialNash.Number

variable {α : Type} {read : List Token → Except GameError (Reading α)} {tokens : List Token}
  {g : TableGame}

/-! ## §1. Payoffs -/

theorem delimits_count : Delimits count := by
  unfold count
  refine delimits_word.bind fun text => ?_
  dsimp only
  cases readCount? text with
  | some n => exact delimits_ok n
  | none => exact delimits_error _

theorem delimits_number : Delimits number := by
  unfold number
  refine delimits_word.bind fun text => ?_
  dsimp only
  cases readGameNumber text with
  | ok q => exact delimits_ok q
  | error e => exact delimits_error e

/-- **Things one after another** are found if each of them is. -/
theorem Delimits.times (h : Delimits read) (n : Nat) : Delimits (times read n) := by
  induction n with
  | zero => exact delimits_ok []
  | succ n ih =>
    refine h.bind fun first => ?_
    exact ih.bind fun others => delimits_ok (first :: others)

/-- If there is anything to read, something is missing at the end of the tokens. -/
theorem times_nil (h0 : read [] = .error .unexpectedEnd) {n : Nat} (hn : 0 < n) :
    times read n [] = .error .unexpectedEnd := by
  obtain ⟨n, rfl⟩ := Nat.exists_eq_succ_of_ne_zero hn.ne'
  rw [times, h0]
  rfl

/-- **The outcomes** are found wherever the reader stands among them. -/
theorem delimits_outcomes (width : Nat) (place : OutcomePlace) :
    Delimits (outcomes width place) := by
  have hend : ∀ place, outcomes width place [] = .error .unexpectedEnd := by
    intro place
    rw [outcomes]
  intro tokens
  induction tokens generalizing place with
  | nil => exact delimitsAt_of_error (hend place)
  | cons t tokens ih =>
    have hcons : ∀ place, DelimitsAt (fun rest => outcomes width place (t :: rest)) tokens →
        DelimitsAt (outcomes width place) (t :: tokens) := fun place =>
      (delimitsAt_cons_iff (hend place)).mpr
    cases place with
    | between =>
      cases t with
      | closing => exact hcons .between (delimits_ok [] tokens)
      | opening => exact hcons .between (ih .name)
      | quoted text => exact delimitsAt_of_error rfl
      | word text => exact delimitsAt_of_error rfl
    | name =>
      cases t with
      | quoted text => exact hcons .name (ih (.numbers width))
      | opening => exact delimitsAt_of_error rfl
      | closing => exact delimitsAt_of_error rfl
      | word text => exact delimitsAt_of_error rfl
    | numbers missing =>
      cases missing with
      | zero =>
        cases t with
        | closing =>
          apply hcons
          simp only [outcomes]
          exact (ih .between).bind fun others rest _ => delimits_ok ([] :: others) rest
        | opening => exact delimitsAt_of_error rfl
        | quoted text => exact delimitsAt_of_error rfl
        | word text => exact delimitsAt_of_error rfl
      | succ missing =>
        cases t with
        | word text =>
          apply hcons
          simp only [outcomes]
          cases readGameNumber text with
          | error e => exact delimits_error e tokens
          | ok q =>
            exact (ih (.numbers missing)).bind fun lists rest _ =>
              delimits_ok ((q :: lists.headD []) :: lists.tail) rest
        | opening => exact delimitsAt_of_error rfl
        | closing => exact delimitsAt_of_error rfl
        | quoted text => exact delimitsAt_of_error rfl

theorem delimits_outcomeRow (width : Nat) (table : List (List Rat)) :
    Delimits (outcomeRow width table) := by
  unfold outcomeRow
  refine delimits_count.bind fun index => ?_
  dsimp only
  cases index with
  | zero => exact delimits_ok _
  | succ k =>
    dsimp only
    cases table[k]? with
    | some row => exact delimits_ok row
    | none => exact delimits_error _

theorem payoffRows_nil {width profiles : Nat} (hwidth : 0 < width) (hprofiles : 0 < profiles) :
    payoffRows width profiles [] = .error .unexpectedEnd :=
  times_nil (times_nil rfl hwidth) hprofiles

/-- **Payoffs**, in either layout, are found if there are any. -/
theorem delimits_payoffRows {width profiles : Nat} (hwidth : 0 < width)
    (hprofiles : 0 < profiles) : Delimits (payoffRows width profiles) := by
  have hend := payoffRows_nil hwidth hprofiles
  have hlisted : Delimits (times (times number width) profiles) :=
    (delimits_number.times width).times profiles
  intro tokens
  cases tokens with
  | nil => exact delimitsAt_of_error hend
  | cons t tokens =>
    cases t with
    | opening =>
      refine (delimitsAt_cons_iff hend).mpr ?_
      refine DelimitsAt.bind (delimits_outcomes width .between tokens) fun table rest _ => ?_
      exact (delimits_outcomeRow width table).times profiles rest
    | closing => exact (hlisted (.closing :: tokens)).congr_cons hend hend fun _ => rfl
    | quoted text => exact (hlisted (.quoted text :: tokens)).congr_cons hend hend fun _ => rfl
    | word text => exact (hlisted (.word text :: tokens)).congr_cons hend hend fun _ => rfl

/-- Payoffs are found after a comment, too. -/
theorem delimits_payoffRows_skipComment {width profiles : Nat} (hwidth : 0 < width)
    (hprofiles : 0 < profiles) :
    Delimits fun tokens => payoffRows width profiles (skipComment tokens) := by
  have hend := payoffRows_nil hwidth hprofiles
  have hrows := delimits_payoffRows hwidth hprofiles
  intro tokens
  cases tokens with
  | nil => exact delimitsAt_of_error hend
  | cons t tokens =>
    cases t with
    | quoted text => exact Iff.mpr (delimitsAt_cons_iff hend) (hrows tokens)
    | opening => exact (hrows (.opening :: tokens)).congr_cons hend hend fun _ => rfl
    | closing => exact (hrows (.closing :: tokens)).congr_cons hend hend fun _ => rfl
    | word text => exact (hrows (.word text :: tokens)).congr_cons hend hend fun _ => rfl

/-! ## §2. Files -/

/-- The title, the players and the payoffs of a file. -/
def contents (tokens : List Token) :
    Except GameError (Reading (String × List PlayerInfo × List (List Rat))) := do
  let ((title, players), rest) ← preamble tokens
  if players = [] then .error .noPlayers
  else
    match (PlayerInfo.shape players).countProfiles? with
    | none => .error .tooLarge
    | some profiles =>
      let (payoffs, rest) ← payoffRows players.length profiles (skipComment rest)
      .ok ((title, players, payoffs), rest)

/-- The table of the data of a file, if nothing is left after them. -/
def finish : Reading (String × List PlayerInfo × List (List Rat)) → Except GameError TableGame
  | (_, extra :: _) => .error (unexpected .endOfFile extra)
  | ((title, players, payoffs), []) => TableGame.ofPayoffs title players payoffs

/-- **A file is read** in two steps. -/
theorem readTokens_eq (tokens : List Token) : readTokens tokens = contents tokens >>= finish := by
  unfold readTokens contents preamble
  rcases header tokens with e | ⟨title, rest⟩
  · rfl
  simp only [ok_bind]
  rcases opening rest with e | ⟨_, rest⟩
  · rfl
  simp only [ok_bind]
  rcases quotedUntilClosing rest with e | ⟨names, rest⟩
  · rfl
  simp only [ok_bind]
  rcases opening rest with e | ⟨_, rest⟩
  · rfl
  simp only [ok_bind]
  rcases strategies names rest with e | ⟨players, rest⟩
  · rfl
  simp only [ok_bind]
  by_cases hplayers : players = []
  · rw [if_pos hplayers, if_pos hplayers]
    rfl
  rw [if_neg hplayers, if_neg hplayers]
  cases (PlayerInfo.shape players).countProfiles? with
  | none => rfl
  | some profiles =>
    dsimp only
    rcases payoffRows players.length profiles (skipComment rest) with e | ⟨payoffs, rest⟩
    · rfl
    cases rest with
    | nil => rfl
    | cons extra rest => rfl

/-- The players of a file that is read have strategies. -/
theorem profiles_pos {title : String} {players : List PlayerInfo} {payoffs : List (List Rat)}
    {profiles : Nat} (h : TableGame.ofPayoffs title players payoffs = .ok g)
    (hcount : (PlayerInfo.shape players).countProfiles? = some profiles) : 0 < profiles := by
  obtain ⟨hdata, -, -, -⟩ := TableGame.ofPayoffs_eq_ok_iff.mp h
  obtain ⟨-, hstrategies, -, -⟩ := TableGame.dataError?_eq_none_iff.mp hdata
  rw [Shape.eq_profileCount_of_countProfiles? hcount]
  exact Shape.profileCount_pos (PlayerInfo.zero_notMem_shape hstrategies)

/-- **The data of a file that is read** are found in its tokens. -/
theorem delimitsAt_contents (h : readTokens tokens = .ok g) : DelimitsAt contents tokens := by
  unfold contents
  refine (delimits_preamble tokens).bind fun header rest hheader => ?_
  obtain ⟨title, players⟩ := header
  dsimp only
  by_cases hplayers : players = []
  · simp only [if_pos hplayers]
    exact delimits_error _ rest
  simp only [if_neg hplayers]
  cases hcount : (PlayerInfo.shape players).countProfiles? with
  | none => exact delimits_error _ rest
  | some profiles =>
    -- only a file that is read to the end is known to have payoffs
    rw [readTokens_of_preamble hheader hplayers hcount] at h
    obtain ⟨⟨payoffs, left⟩, -, hread⟩ := exists_of_bind_eq_ok h
    have hprofiles : 0 < profiles := by
      cases left with
      | nil => exact profiles_pos hread hcount
      | cons extra left => cases hread
    have hwidth : 0 < players.length := List.length_pos_iff.mpr hplayers
    exact (delimits_payoffRows_skipComment hwidth hprofiles rest).bind fun payoffs rest _ =>
      delimits_ok _ rest

/-- All tokens of a file that is read are those of its data. -/
theorem exists_reads_contents (h : readTokens tokens = .ok g) :
    ∃ data, Reads contents tokens data := by
  have hdelimits := delimitsAt_contents h
  rw [readTokens_eq] at h
  obtain ⟨⟨data, left⟩, hdata, hfinish⟩ := exists_of_bind_eq_ok h
  obtain ⟨used, rfl, hreads⟩ := hdelimits data left hdata
  cases left with
  | nil =>
    rw [List.append_nil]
    exact ⟨data, hreads⟩
  | cons extra left => cases hfinish

variable {tokens' : List Token} {data : String × List PlayerInfo × List (List Rat)}

/-- **A file that is cut** between two tokens ends too early. -/
theorem readTokens_of_isPrefix (h : Reads contents tokens data) (hearly : tokens' <+: tokens)
    (hne : tokens' ≠ tokens) : readTokens tokens' = .error .unexpectedEnd := by
  obtain ⟨lost, hlost⟩ := hearly
  have hlost_ne : lost ≠ [] := by
    rintro rfl
    exact hne (by rw [← hlost, List.append_nil])
  rw [readTokens_eq, h.cut tokens' lost hlost_ne hlost.symm]
  rfl

/-- **A file with more tokens** does not end where it should. -/
theorem readTokens_append_cons (h : Reads contents tokens data) (extra : Token)
    (more : List Token) : readTokens (tokens ++ extra :: more)
      = .error (.departure (.unexpected .endOfFile extra)) := by
  rw [readTokens_eq, h.whole]
  rfl

/-- **No file is the beginning of another.**  If a file is read, then one that is cut
between two of its tokens ends too early, and one with more tokens is refused for the first
of them; so of two files that are read neither is the beginning of the other. -/
theorem readGame_prefixFree {cs : List Char} (h : readGame cs = .ok g) :
    ∃ tokens, tokens? cs = some tokens ∧ ∀ cs' tokens', tokens? cs' = some tokens' →
      (tokens' <+: tokens → tokens' ≠ tokens → readGame cs' = .error .unexpectedEnd)
      ∧ (∀ extra more, tokens' = tokens ++ extra :: more →
          readGame cs' = .error (.departure (.unexpected .endOfFile extra)))
      ∧ ∀ g', readGame cs' = .ok g' → tokens <+: tokens' ∨ tokens' <+: tokens →
          tokens' = tokens := by
  unfold readGame at h
  split at h
  · cases h
  next tokens htokens =>
  obtain ⟨data, hdata⟩ := exists_reads_contents h
  refine ⟨tokens, htokens, fun cs' tokens' htokens' => ?_⟩
  have hread : readGame cs' = readTokens tokens' := by
    unfold readGame
    rw [htokens']
  rw [hread]
  refine ⟨readTokens_of_isPrefix hdata, ?_, ?_⟩
  · rintro extra more rfl
    exact readTokens_append_cons hdata extra more
  · rintro g' hg' (⟨more, rfl⟩ | hearly)
    · cases more with
      | nil => exact List.append_nil tokens
      | cons extra more =>
        rw [readTokens_append_cons hdata extra more] at hg'
        cases hg'
    · by_contra hne
      rw [readTokens_of_isPrefix hdata hearly hne] at hg'
      cases hg'

/-- The tokens of a file with a comment and an outcome. -/
def lottery : List Token :=
  [.word ['N', 'F', 'G'], .word ['1'], .word ['R'], .quoted []] ++ braced [.quoted ['A']]
    ++ braced [.word ['2']] ++ [.quoted ['c']] ++ braced (braced [.quoted ['o'], .word ['7']])
    ++ [.word ['1'], .word ['0']]

theorem readGame_prefixFree_lottery :
    (∃ g, readGame ("NFG 1 R \"\" \x7b\"A\"\x7d \x7b2\x7d \"c\" "
        ++ "\x7b\x7b\"o\" 7\x7d\x7d 1 0").toList = .ok g)
      ∧ readGame ("NFG 1 R \"\" \x7b\"A\"\x7d \x7b2\x7d \"c\" "
        ++ "\x7b\x7b\"o\"").toList = .error .unexpectedEnd
      ∧ readGame ("NFG 1 R \"\" \x7b\"A\"\x7d \x7b2\x7d \"c\" "
        ++ "\x7b\x7b\"o\" 7\x7d\x7d 1 0 \"d\"").toList
        = .error (.departure (.unexpected .endOfFile (.quoted ['d']))) := by
  have hwhole : tokens? ("NFG 1 R \"\" \x7b\"A\"\x7d \x7b2\x7d \"c\" "
      ++ "\x7b\x7b\"o\" 7\x7d\x7d 1 0").toList = some lottery := by
    decide +kernel
  have hcut : tokens? ("NFG 1 R \"\" \x7b\"A\"\x7d \x7b2\x7d \"c\" "
      ++ "\x7b\x7b\"o\"").toList = some (lottery.take 14) := by
    decide +kernel
  have hmore : tokens? ("NFG 1 R \"\" \x7b\"A\"\x7d \x7b2\x7d \"c\" "
      ++ "\x7b\x7b\"o\" 7\x7d\x7d 1 0 \"d\"").toList = some (lottery ++ [.quoted ['d']]) := by
    decide +kernel
  obtain ⟨g, hg⟩ : ∃ g, readGame ("NFG 1 R \"\" \x7b\"A\"\x7d \x7b2\x7d \"c\" "
      ++ "\x7b\x7b\"o\" 7\x7d\x7d 1 0").toList = .ok g := by
    have hok : ((readGame ("NFG 1 R \"\" \x7b\"A\"\x7d \x7b2\x7d \"c\" "
        ++ "\x7b\x7b\"o\" 7\x7d\x7d 1 0").toList).toOption).isSome = true := by
      decide +kernel
    revert hok
    cases readGame _ with
    | error e => exact fun hok => absurd hok Bool.false_ne_true
    | ok g => exact fun _ => ⟨g, rfl⟩
  obtain ⟨tokens, htokens, hothers⟩ := readGame_prefixFree hg
  obtain rfl : lottery = tokens := Option.some.inj (hwhole.symm.trans htokens)
  obtain ⟨hearly, -, -⟩ := hothers _ _ hcut
  obtain ⟨-, hlate, -⟩ := hothers _ _ hmore
  exact ⟨⟨g, hg⟩, hearly (List.take_prefix 14 lottery) (by decide), hlate _ [] rfl⟩

end SimplicialNash.Nfg
