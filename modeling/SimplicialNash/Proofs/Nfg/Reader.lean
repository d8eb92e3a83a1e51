/-
  SimplicialNash.Proofs.Nfg.Reader
  ────────────────────────────────
  **What the parts of a file are read as.**

  A reader that succeeds has looked at the tokens that it has read: with fewer of them it
  comes to their end, and what follows them it leaves alone (`Delimits`).  So the title and
  the players are the same whatever comes after them (`keepsRest_preamble`), and the payoffs
  alone decide what becomes of the rest of the file (`readTokens_of_preamble`).

  Words that are numbers are read as the numbers, item by item
  (`times_of_forall₂`, `times_number`), and so are lists in braces: names, counts, lists
  of names (`quotedLists_braced`).  An item that is not read stops the reader where it
  stands (`times_eq_error`).
-/
import Mathlib.Data.List.Forall2
import SimplicialNash.Nfg.Reader
import SimplicialNash.Proofs.Game.Table
import SimplicialNash.Proofs.Number.Literal

namespace SimplicialNash.Nfg

open SimplicialNash.Number

/-! ## §1. What is read and what is left -/

section

variable {α β : Type} {tokens rest more : List Token}

/-- Tokens that a reader reads, no more and no fewer of them. -/
structure Reads (read : List Token → Except GameError (Reading α)) (used : List Token) (x : α) :
    Prop where
  /-- What follows them is left alone. -/
  whole : ∀ more, read (used ++ more) = .ok (x, more)
  /-- If the last of them are lost, the reader comes to the end of the tokens. -/
  cut : ∀ early lost, lost ≠ [] → used = early ++ lost → read early = .error .unexpectedEnd

/-- If the reader succeeds, it has read the tokens before those that it leaves. -/
def DelimitsAt (read : List Token → Except GameError (Reading α)) (tokens : List Token) : Prop :=
  ∀ x rest, read tokens = .ok (x, rest) → ∃ used, tokens = used ++ rest ∧ Reads read used x

/-- A reader that finds the end of what it reads. -/
def Delimits (read : List Token → Except GameError (Reading α)) : Prop :=
  ∀ tokens, DelimitsAt read tokens

/-- A reader that succeeds does so whatever follows, and leaves it there. -/
def KeepsRest (read : List Token → Except GameError (Reading α)) : Prop :=
  ∀ tokens x rest, read tokens = .ok (x, rest) → ∀ more,
    read (tokens ++ more) = .ok (x, rest ++ more)

variable {read other : List Token → Except GameError (Reading α)}
  {next : Reading α → Except GameError (Reading β)} {used used' : List Token} {x : α} {y : β}
  {t : Token} {e : GameError}

theorem Delimits.keepsRest (h : Delimits read) : KeepsRest read := by
  intro tokens x rest hread more
  obtain ⟨used, rfl, hused⟩ := h tokens x rest hread
  rw [List.append_assoc]
  exact hused.whole (rest ++ more)

/-- **Readers one after another** read what the first reads and then what the second reads. -/
theorem Reads.bind (h : Reads read used x) (hnext : Reads (fun rest => next (x, rest)) used' y) :
    Reads (fun tokens => read tokens >>= next) (used ++ used') y where
  whole := by
    intro more
    show (read (used ++ used' ++ more) >>= next) = _
    rw [List.append_assoc, h.whole, ok_bind]
    exact hnext.whole more
  cut := by
    intro early lost hlost hcut
    show (read early >>= next) = _
    rcases List.append_eq_append_iff.mp hcut with ⟨early', rfl, hused'⟩ | ⟨lost', hused, rfl⟩
    · -- the first reader has all that it needs
      rw [h.whole, ok_bind]
      exact hnext.cut early' lost hlost hused'
    · by_cases hlost' : lost' = []
      · subst hlost'
        rw [List.append_nil] at hused
        have hall := h.whole []
        rw [List.append_nil, hused] at hall
        rw [hall, ok_bind]
        exact hnext.cut [] used' hlost rfl
      · rw [h.cut early lost' hlost' hused]
        rfl

theorem DelimitsAt.bind (h : DelimitsAt read tokens)
    (hnext : ∀ x rest, read tokens = .ok (x, rest) →
      DelimitsAt (fun rest => next (x, rest)) rest) :
    DelimitsAt (fun tokens => read tokens >>= next) tokens := by
  intro y rest hread
  obtain ⟨⟨x, mid⟩, hfirst, hsecond⟩ := exists_of_bind_eq_ok hread
  obtain ⟨used, hused, hx⟩ := h x mid hfirst
  obtain ⟨used', rfl, hy⟩ := hnext x mid hfirst y rest hsecond
  exact ⟨used ++ used', by rw [hused, List.append_assoc], hx.bind hy⟩

theorem Delimits.bind (h : Delimits read) (hnext : ∀ x, Delimits fun rest => next (x, rest)) :
    Delimits fun tokens => read tokens >>= next := fun tokens =>
  (h tokens).bind fun x rest _ => hnext x rest

theorem delimits_ok (x : α) : Delimits fun tokens => .ok (x, tokens) := by
  intro tokens y rest h
  obtain ⟨rfl, rfl⟩ := Prod.mk.inj (Except.ok.inj h)
  refine ⟨[], rfl, fun more => rfl, ?_⟩
  intro early lost hlost hcut
  exact absurd (List.append_eq_nil_iff.mp hcut.symm).2 hlost

theorem delimitsAt_of_error (h : read tokens = .error e) : DelimitsAt read tokens := by
  intro x rest hread
  rw [h] at hread
  cases hread

theorem delimits_error (e : GameError) :
    Delimits fun _ => (.error e : Except GameError (Reading α)) := fun _ =>
  delimitsAt_of_error rfl

theorem Delimits.ite {p : Prop} [Decidable p] (h : Delimits read) (hother : Delimits other) :
    Delimits fun tokens => if p then read tokens else other tokens := by
  by_cases hp : p
  · simpa only [if_pos hp] using h
  · simpa only [if_neg hp] using hother

/-- **The first token** is read by a reader that needs one. -/
theorem delimitsAt_cons_iff (h0 : read [] = .error .unexpectedEnd) :
    DelimitsAt read (t :: tokens) ↔ DelimitsAt (fun rest => read (t :: rest)) tokens := by
  constructor
  · intro h x rest hread
    obtain ⟨used, hused, hx⟩ := h x rest hread
    cases used with
    | nil =>
      have hnone := hx.whole []
      rw [List.append_nil, h0] at hnone
      cases hnone
    | cons t' used =>
      obtain ⟨rfl, rfl⟩ := List.cons.inj hused
      refine ⟨used, rfl, hx.whole, ?_⟩
      intro early lost hlost hcut
      exact hx.cut (t :: early) lost hlost (by rw [hcut, List.cons_append])
  · intro h x rest hread
    obtain ⟨used, rfl, hx⟩ := h x rest hread
    refine ⟨t :: used, rfl, hx.whole, ?_⟩
    intro early lost hlost hcut
    cases early with
    | nil => exact h0
    | cons t' early =>
      obtain ⟨rfl, hused⟩ := List.cons.inj hcut
      exact hx.cut early lost hlost hused

/-- The first token decides which of two readers is used. -/
theorem DelimitsAt.congr_cons (h : DelimitsAt other (t :: tokens))
    (hother : other [] = .error .unexpectedEnd) (h0 : read [] = .error .unexpectedEnd)
    (heq : ∀ rest, read (t :: rest) = other (t :: rest)) : DelimitsAt read (t :: tokens) := by
  rw [delimitsAt_cons_iff h0, funext heq]
  exact (delimitsAt_cons_iff hother).mp h

/-- A reader of a single token either takes it or refuses it. -/
theorem delimits_single (h0 : read [] = .error .unexpectedEnd)
    (h : ∀ t, (∃ x, ∀ rest, read (t :: rest) = .ok (x, rest))
      ∨ ∃ e, ∀ rest, read (t :: rest) = .error e) : Delimits read := by
  intro tokens
  cases tokens with
  | nil => exact delimitsAt_of_error h0
  | cons t tokens =>
    rcases h t with ⟨x, hx⟩ | ⟨e, he⟩
    · rw [delimitsAt_cons_iff h0, funext hx]
      exact delimits_ok x tokens
    · exact delimitsAt_of_error (he tokens)

theorem delimits_opening : Delimits opening := by
  refine delimits_single rfl fun t => ?_
  cases t with
  | opening => exact Or.inl ⟨(), fun _ => rfl⟩
  | closing => exact Or.inr ⟨_, fun _ => rfl⟩
  | quoted text => exact Or.inr ⟨_, fun _ => rfl⟩
  | word text => exact Or.inr ⟨_, fun _ => rfl⟩

theorem delimits_quoted : Delimits quoted := by
  refine delimits_single rfl fun t => ?_
  cases t with
  | quoted text => exact Or.inl ⟨String.ofList text, fun _ => rfl⟩
  | opening => exact Or.inr ⟨_, fun _ => rfl⟩
  | closing => exact Or.inr ⟨_, fun _ => rfl⟩
  | word text => exact Or.inr ⟨_, fun _ => rfl⟩

theorem delimits_word : Delimits word := by
  refine delimits_single rfl fun t => ?_
  cases t with
  | word text => exact Or.inl ⟨text, fun _ => rfl⟩
  | opening => exact Or.inr ⟨_, fun _ => rfl⟩
  | closing => exact Or.inr ⟨_, fun _ => rfl⟩
  | quoted text => exact Or.inr ⟨_, fun _ => rfl⟩

theorem delimits_quotedUntilClosing : Delimits quotedUntilClosing := by
  intro tokens
  induction tokens with
  | nil => exact delimitsAt_of_error rfl
  | cons t tokens ih =>
    cases t with
    | closing => exact (delimitsAt_cons_iff rfl).mpr (delimits_ok [] tokens)
    | quoted text =>
      refine (delimitsAt_cons_iff rfl).mpr ?_
      simp only [quotedUntilClosing]
      exact ih.bind fun others rest _ => delimits_ok (String.ofList text :: others) rest
    | opening => exact delimitsAt_of_error rfl
    | word text => exact delimitsAt_of_error rfl

theorem delimits_countsUntilClosing : Delimits countsUntilClosing := by
  intro tokens
  induction tokens with
  | nil => exact delimitsAt_of_error rfl
  | cons t tokens ih =>
    cases t with
    | closing => exact (delimitsAt_cons_iff rfl).mpr (delimits_ok [] tokens)
    | word text =>
      refine (delimitsAt_cons_iff rfl).mpr ?_
      simp only [countsUntilClosing]
      cases readCount? text with
      | none => exact delimits_error _ tokens
      | some n => exact ih.bind fun others rest _ => delimits_ok (n :: others) rest
    | opening => exact delimitsAt_of_error rfl
    | quoted text => exact delimitsAt_of_error rfl

theorem delimits_quotedLists (within : Bool) : Delimits (quotedLists within) := by
  intro tokens
  induction tokens generalizing within with
  | nil => cases within <;> exact delimitsAt_of_error rfl
  | cons t tokens ih =>
    cases within with
    | false =>
      cases t with
      | closing => exact (delimitsAt_cons_iff rfl).mpr (delimits_ok [] tokens)
      | opening => exact (delimitsAt_cons_iff rfl).mpr (ih true)
      | quoted text => exact delimitsAt_of_error rfl
      | word text => exact delimitsAt_of_error rfl
    | true =>
      cases t with
      | closing =>
        refine (delimitsAt_cons_iff rfl).mpr ?_
        simp only [quotedLists]
        exact (ih false).bind fun others rest _ => delimits_ok ([] :: others) rest
      | quoted text =>
        refine (delimitsAt_cons_iff rfl).mpr ?_
        simp only [quotedLists]
        exact (ih true).bind fun lists rest _ =>
          delimits_ok ((String.ofList text :: lists.headD []) :: lists.tail) rest
      | opening => exact delimitsAt_of_error rfl
      | word text => exact delimitsAt_of_error rfl

theorem delimits_header : Delimits header := by
  unfold header
  refine delimits_word.bind fun format => ?_
  refine .ite (delimits_error _) (delimits_word.bind fun version => ?_)
  refine .ite (delimits_error _) (delimits_word.bind fun kind => ?_)
  exact .ite (delimits_error _) delimits_quoted

theorem delimits_strategies (names : List String) : Delimits (strategies names) := by
  have hlists : Delimits fun tokens => quotedLists false tokens >>= fun read =>
      if read.1.length ≠ names.length then
        .error (.departure (.strategyLists names.length read.1.length))
      else .ok (List.zipWith PlayerInfo.mk names read.1, read.2) := by
    refine (delimits_quotedLists false).bind fun lists => ?_
    dsimp only
    exact .ite (p := lists.length ≠ names.length) (delimits_error _) (delimits_ok _)
  have hcounts : Delimits fun tokens => countsUntilClosing tokens >>= fun read =>
      if read.1.length ≠ names.length then
        .error (.departure (.strategyCounts names.length read.1.length))
      else .ok (List.zipWith PlayerInfo.numbered names read.1, read.2) := by
    refine delimits_countsUntilClosing.bind fun counts => ?_
    dsimp only
    exact .ite (p := counts.length ≠ names.length) (delimits_error _) (delimits_ok _)
  intro tokens
  -- the first token decides which of the two is read
  cases tokens with
  | nil => exact delimitsAt_of_error rfl
  | cons t tokens =>
    cases t with
    | opening => exact (hlists (.opening :: tokens)).congr_cons rfl rfl fun _ => rfl
    | closing => exact (hcounts (.closing :: tokens)).congr_cons rfl rfl fun _ => rfl
    | quoted text => exact (hcounts (.quoted text :: tokens)).congr_cons rfl rfl fun _ => rfl
    | word text => exact (hcounts (.word text :: tokens)).congr_cons rfl rfl fun _ => rfl

/-- The title and the players of a file, up to the brace that closes their strategies. -/
def preamble (tokens : List Token) : Except GameError (Reading (String × List PlayerInfo)) := do
  let (title, rest) ← header tokens
  let (_, rest) ← opening rest
  let (names, rest) ← quotedUntilClosing rest
  let (_, rest) ← opening rest
  let (players, rest) ← strategies names rest
  .ok ((title, players), rest)

/-- **The title and the players** are found in the tokens up to that brace. -/
theorem delimits_preamble : Delimits preamble := by
  unfold preamble
  refine delimits_header.bind fun title => ?_
  refine delimits_opening.bind fun _ => ?_
  refine delimits_quotedUntilClosing.bind fun names => ?_
  refine delimits_opening.bind fun _ => ?_
  exact (delimits_strategies names).bind fun players => delimits_ok _

/-- They are the same whatever comes after them. -/
theorem keepsRest_preamble : KeepsRest preamble := delimits_preamble.keepsRest

/-- The table of the payoffs that the last tokens of a file are read as. -/
def readTable (title : String) (players : List PlayerInfo) (profiles : Nat)
    (tokens : List Token) : Except GameError TableGame := do
  let (payoffs, rest) ← payoffRows players.length profiles tokens
  match rest with
  | extra :: _ => .error (unexpected .endOfFile extra)
  | [] => TableGame.ofPayoffs title players payoffs

/-- **After the players** the payoffs decide what becomes of a file. -/
theorem readTokens_of_preamble {title : String} {players : List PlayerInfo} {profiles : Nat}
    (h : preamble tokens = .ok ((title, players), rest)) (hne : players ≠ [])
    (hcount : (PlayerInfo.shape players).countProfiles? = some profiles) :
    readTokens tokens = readTable title players profiles (skipComment rest) := by
  unfold preamble at h
  obtain ⟨⟨_, _⟩, htitle, h⟩ := exists_of_bind_eq_ok h
  obtain ⟨⟨_, _⟩, hopen, h⟩ := exists_of_bind_eq_ok h
  obtain ⟨⟨_, _⟩, hnames, h⟩ := exists_of_bind_eq_ok h
  obtain ⟨⟨_, _⟩, hopen', h⟩ := exists_of_bind_eq_ok h
  obtain ⟨⟨_, _⟩, hplayers, h⟩ := exists_of_bind_eq_ok h
  obtain ⟨hpair, rfl⟩ := Prod.mk.inj (Except.ok.inj h)
  obtain ⟨rfl, rfl⟩ := Prod.mk.inj hpair
  unfold readTokens
  rw [htitle, ok_bind]
  dsimp only
  rw [hopen, ok_bind]
  dsimp only
  rw [hnames, ok_bind]
  dsimp only
  rw [hopen', ok_bind]
  dsimp only
  rw [hplayers, ok_bind]
  dsimp only
  rw [if_neg hne, hcount]
  rfl

end

/-! ## §2. Numbers -/

section

variable {α β : Type} {read : List Token → Except GameError (Reading α)} {w : β → List Token}
  {bs : List β} {xs : List α}

/-- **What is read item by item** is read in order, whatever follows. -/
theorem times_of_forall₂
    (h : List.Forall₂ (fun b x => ∀ rest, read (w b ++ rest) = .ok (x, rest)) bs xs)
    (rest : List Token) : times read bs.length (bs.flatMap w ++ rest) = .ok (xs, rest) := by
  induction h with
  | nil => rfl
  | cons hd _ ih =>
    rw [List.flatMap_cons, List.append_assoc, List.length_cons, times, hd, ok_bind]
    dsimp only
    rw [ih, ok_bind]

/-- **An item that is not read** stops the reader, if there have not been enough before. -/
theorem times_eq_error
    (h : List.Forall₂ (fun b x => ∀ rest, read (w b ++ rest) = .ok (x, rest)) bs xs)
    {n : Nat} (hlt : bs.length < n) {more : List Token} {e : GameError}
    (hmore : read more = .error e) : times read n (bs.flatMap w ++ more) = .error e := by
  induction h generalizing n with
  | nil =>
    obtain ⟨n, rfl⟩ := Nat.exists_eq_succ_of_ne_zero hlt.ne'
    rw [List.flatMap_nil, List.nil_append, times, hmore]
    rfl
  | cons hd _ ih =>
    obtain ⟨n, rfl⟩ := Nat.exists_eq_succ_of_ne_zero (Nat.ne_zero_of_lt hlt)
    rw [List.flatMap_cons, List.append_assoc, times, hd, ok_bind]
    dsimp only
    rw [ih (Nat.lt_of_succ_lt_succ hlt)]
    rfl

end

/-- A word that denotes a number. -/
def Denotes (text : List Char) (q : Rat) : Prop := readRational? text = some q

/-- Words as tokens. -/
def words (texts : List (List Char)) : List Token := texts.map Token.word

theorem number_word {text : List Char} {q : Rat} (h : Denotes text q) (rest : List Token) :
    number (.word text :: rest) = .ok (q, rest) := by
  rw [number, word, ok_bind]
  dsimp only
  rw [readGameNumber_eq_ok h, ok_bind]

/-- **Words that denote numbers** are read as the numbers. -/
theorem times_number {row : List (List Char)} {qs : List Rat} (h : List.Forall₂ Denotes row qs)
    (rest : List Token) : times number row.length (words row ++ rest) = .ok (qs, rest) := by
  rw [words, List.map_eq_flatMap]
  exact times_of_forall₂ (h.imp fun _ _ hd => number_word hd) rest

/-- **Rows of numbers**, one for each pure profile. -/
theorem payoffRows_words {rows : List (List (List Char))} {payoffs : List (List Rat)}
    (h : List.Forall₂ (List.Forall₂ Denotes) rows payoffs) {width : Nat}
    (hwidth : ∀ row ∈ rows, row.length = width) :
    payoffRows width rows.length (rows.flatMap words) = .ok (payoffs, []) := by
  have hrows : List.Forall₂ (fun row qs => ∀ rest,
      times number width (words row ++ rest) = .ok (qs, rest)) rows payoffs := by
    induction h with
    | nil => exact .nil
    | cons hd _ ih =>
      obtain ⟨hrow, hrest⟩ := List.forall_mem_cons.mp hwidth
      exact .cons (fun rest => hrow ▸ times_number hd rest) (ih hrest)
  have htimes := times_of_forall₂ hrows []
  rw [List.append_nil] at htimes
  unfold payoffRows
  split
  · next rest hopening =>
    -- no word is a brace
    have hmem : Token.opening ∈ rows.flatMap words := hopening ▸ List.mem_cons_self
    obtain ⟨row, -, hrow⟩ := List.mem_flatMap.mp hmem
    obtain ⟨_, -, hword⟩ := List.mem_map.mp hrow
    cases hword
  · exact htimes

/-- Digits have no sign in front. -/
theorem readCount?_digits (n : Nat) :
    readCount? (digits n) = if n < UInt64.size then some n else none := by
  unfold readCount?
  split
  · next rest h =>
    have hdigit : isDigit '+' = true := isDigit_of_mem_digits (h ▸ List.mem_cons_self)
    cases hdigit
  · dsimp only
    rw [readDigits?_digits, Option.bind_some]

theorem count_digits (n : Nat) (rest : List Token) :
    count (.word (digits n) :: rest)
      = if n < UInt64.size then .ok (n, rest) else .error (.invalidNumber (numeral n)) := by
  rw [count, word, ok_bind]
  dsimp only
  rw [readCount?_digits]
  split_ifs <;> rfl

/-! ## §3. Lists in braces -/

/-- Texts as quoted tokens. -/
def quotes (texts : List String) : List Token := texts.map fun text => .quoted text.toList

/-- Tokens in braces. -/
def braced (tokens : List Token) : List Token := .opening :: tokens ++ [.closing]

theorem quotedUntilClosing_quotes (names : List String) (rest : List Token) :
    quotedUntilClosing (quotes names ++ .closing :: rest) = .ok (names, rest) := by
  induction names with
  | nil => rfl
  | cons name names ih =>
    rw [quotes, List.map_cons, List.cons_append, quotedUntilClosing, ← quotes, ih, ok_bind]
    dsimp only
    rw [String.ofList_toList]

/-- **Counts**, as words, up to the closing brace. -/
theorem countsUntilClosing_words {counts : List Nat} (h : ∀ n ∈ counts, n < UInt64.size)
    (rest : List Token) :
    countsUntilClosing (words (counts.map digits) ++ .closing :: rest) = .ok (counts, rest) := by
  induction counts with
  | nil => rfl
  | cons n counts ih =>
    obtain ⟨hn, hcounts⟩ := List.forall_mem_cons.mp h
    rw [words, List.map_cons, List.map_cons, List.cons_append, countsUntilClosing,
      readCount?_digits, if_pos hn, ← words]
    dsimp only
    rw [ih hcounts]
    rfl

/-- **Lists of texts**, each in braces, up to the closing brace. -/
theorem quotedLists_braced (lists : List (List String)) (rest : List Token) :
    quotedLists false (lists.flatMap (fun list => braced (quotes list)) ++ .closing :: rest)
      = .ok (lists, rest) := by
  -- within a list its texts are put in front of what is read after it
  have hwithin : ∀ (list : List String) {others : List (List String)} {following : List Token},
      quotedLists false following = .ok (others, rest) →
        quotedLists true (quotes list ++ .closing :: following) = .ok (list :: others, rest) := by
    intro list others following hothers
    induction list with
    | nil =>
      rw [quotes, List.map_nil, List.nil_append, quotedLists, hothers]
      rfl
    | cons text list ih =>
      rw [quotes, List.map_cons, List.cons_append, quotedLists, ← quotes, ih, ok_bind]
      dsimp only
      rw [String.ofList_toList]
      rfl
  induction lists with
  | nil => rfl
  | cons list lists ih =>
    have hlist := hwithin list ih
    simp only [List.flatMap_cons, braced, List.cons_append, List.append_assoc, List.nil_append]
    rw [quotedLists]
    exact hlist

end SimplicialNash.Nfg
