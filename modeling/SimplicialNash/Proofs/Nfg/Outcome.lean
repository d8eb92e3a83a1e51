/-
  SimplicialNash.Proofs.Nfg.Outcome
  ─────────────────────────────────
  **Files that list outcomes.**

  A file may list outcomes and name one of them for each pure profile, by its number
  counted from one; number zero gives everyone nothing.  Such a file is read as the one
  that lists the numbers of that outcome in the place of its name, and the first name of
  an outcome that there is not is the error (`readGame_outcomeFile`).

  The number of an outcome is a machine word.  A larger one is not taken for the number of
  an outcome that there is not, but for no number at all (`not_forall_unknownOutcome`).
-/
import SimplicialNash.Proofs.Nfg.File

namespace SimplicialNash.Nfg

open SimplicialNash.Number

/-! ## §1. Outcomes -/

/-- An outcome as it is written: a name, and words that denote numbers. -/
structure Outcome where
  name : List Char
  numbers : List (List Char)

namespace Outcome

variable {width : Nat} {o : Outcome}

/-- The tokens of an outcome, within its braces. -/
def tokens (o : Outcome) : List Token := .quoted o.name :: words o.numbers

/-- The numbers of an outcome. -/
def payoffs (o : Outcome) : List Rat := o.numbers.map fun text => (readRational? text).getD 0

/-- There is one word for every player, and all of them are numbers. -/
def IsReadable (width : Nat) (o : Outcome) : Prop :=
  o.numbers.length = width ∧ ∀ text ∈ o.numbers, (readRational? text).isSome

instance : Decidable (o.IsReadable width) := inferInstanceAs (Decidable (_ ∧ _))

theorem IsReadable.denotes (h : o.IsReadable width) :
    List.Forall₂ Denotes o.numbers o.payoffs := by
  refine List.forall₂_map_right_iff.mpr (List.forall₂_same.mpr fun text htext => ?_)
  obtain ⟨q, hq⟩ := Option.isSome_iff_exists.mp (h.2 text htext)
  rw [Denotes, hq, Option.getD_some]

end Outcome

section

variable {list : List Outcome} {width k : Nat}

/-- **Outcomes**, each in braces, up to the closing brace. -/
theorem outcomes_braced (h : ∀ o ∈ list, o.IsReadable width) (rest : List Token) :
    outcomes width .between (list.flatMap (fun o => braced o.tokens) ++ .closing :: rest)
      = .ok (list.map Outcome.payoffs, rest) := by
  -- within an outcome its numbers are put in front of what is read after it
  have hwithin : ∀ {row : List (List Char)} {qs : List Rat} {others : List (List Rat)}
      {following : List Token}, List.Forall₂ Denotes row qs →
      outcomes width .between following = .ok (others, rest) →
        outcomes width (.numbers row.length) (words row ++ .closing :: following)
          = .ok (qs :: others, rest) := by
    intro row qs others following hrow hothers
    induction hrow with
    | nil =>
      rw [words, List.map_nil, List.nil_append, List.length_nil, outcomes, hothers]
      rfl
    | @cons text q row qs hd _ ih =>
      rw [words, List.map_cons, List.cons_append, List.length_cons, outcomes,
        readGameNumber_eq_ok hd, ← words, ok_bind, ih]
      rfl
  induction list with
  | nil => rfl
  | cons o list ih =>
    obtain ⟨ho, hlist⟩ := List.forall_mem_cons.mp h
    have hnumbers := hwithin ho.denotes (ih hlist)
    rw [ho.1] at hnumbers
    simp only [List.flatMap_cons, braced, Outcome.tokens, List.cons_append, List.append_assoc,
      List.nil_append]
    rw [outcomes, outcomes]
    exact hnumbers

/-! ## §2. Naming outcomes -/

/-- A number that names an outcome: a machine word, and not beyond the last outcome. -/
def IsIndex (list : List Outcome) (k : Nat) : Prop := k ≤ list.length ∧ k < UInt64.size

instance : Decidable (IsIndex list k) := inferInstanceAs (Decidable (_ ∧ _))

/-- The words of the outcome with a number, or as many zeros for number zero. -/
def numbersOf (width : Nat) (list : List Outcome) : Nat → List (List Char)
  | 0 => List.replicate width ['0']
  | k + 1 => (list[k]?.map Outcome.numbers).getD []

/-- The payoffs that they denote. -/
def payoffsOf (width : Nat) (list : List Outcome) : Nat → List Rat
  | 0 => List.replicate width 0
  | k + 1 => (list[k]?.map Outcome.payoffs).getD []

/-- What is wrong with a number that names no outcome. -/
def indexError (k : Nat) : GameError :=
  if k < UInt64.size then .unknownOutcome k else .invalidNumber (numeral k)

/-- **The number of an outcome** is read as the payoffs of that outcome. -/
theorem outcomeRow_digits (width : Nat) (list : List Outcome) (k : Nat) (rest : List Token) :
    outcomeRow width (list.map Outcome.payoffs) (.word (digits k) :: rest)
      = if IsIndex list k then .ok (payoffsOf width list k, rest) else .error (indexError k) := by
  unfold outcomeRow
  rw [count_digits]
  by_cases hword : k < UInt64.size
  · rw [if_pos hword, ok_bind, indexError, if_pos hword]
    cases k with
    | zero =>
      rw [if_pos ⟨Nat.zero_le _, hword⟩]
      rfl
    | succ k =>
      dsimp only
      rw [List.getElem?_map, payoffsOf]
      by_cases hk : k < list.length
      · rw [if_pos ⟨hk, hword⟩, List.getElem?_eq_getElem hk]
        rfl
      · rw [if_neg fun h => hk h.1, List.getElem?_eq_none (Nat.le_of_not_lt hk)]
        rfl
  · rw [if_neg hword, if_neg fun h => hword h.2, indexError, if_neg hword]
    rfl

/-- **The words of an outcome** denote its payoffs, and there is one for every player. -/
theorem denotes_numbersOf (h : ∀ o ∈ list, o.IsReadable width) (hk : IsIndex list k) :
    List.Forall₂ Denotes (numbersOf width list k) (payoffsOf width list k)
      ∧ (numbersOf width list k).length = width := by
  cases k with
  | zero =>
    refine ⟨?_, List.length_replicate⟩
    have hzero : Denotes ['0'] 0 := by
      unfold Denotes
      decide +kernel
    have hzeros : ∀ n, List.Forall₂ Denotes (List.replicate n ['0']) (List.replicate n 0) := by
      intro n
      induction n with
      | zero => exact .nil
      | succ n ih => exact .cons hzero ih
    exact hzeros width
  | succ k =>
    have hlt : k < list.length := hk.1
    have ho := h _ (List.getElem_mem hlt)
    rw [numbersOf, payoffsOf, List.getElem?_eq_getElem hlt]
    exact ⟨ho.denotes, ho.1⟩

/-- Outcomes in braces, and the numbers of outcomes. -/
def outcomeTokens (list : List Outcome) (indices : List Nat) : List Token :=
  braced (list.flatMap fun o => braced o.tokens) ++ words (indices.map digits)

/-- **Numbers of outcomes** are read after the outcomes. -/
theorem payoffRows_outcomeTokens (h : ∀ o ∈ list, o.IsReadable width) (profiles : Nat)
    (indices : List Nat) :
    payoffRows width profiles (outcomeTokens list indices)
      = times (outcomeRow width (list.map Outcome.payoffs)) profiles
          (indices.flatMap fun k => [.word (digits k)]) := by
  have hwords : words (indices.map digits) = indices.flatMap fun k => [.word (digits k)] := by
    rw [words, List.map_map, List.map_eq_flatMap]
    rfl
  have hlist := outcomes_braced h (words (indices.map digits))
  simp only [payoffRows, outcomeTokens, braced, List.cons_append, List.append_assoc,
    List.nil_append] at hlist ⊢
  rw [hlist, ok_bind, hwords]

/-- Numbers that name outcomes are read as the payoffs of the outcomes. -/
theorem forall₂_outcomeRow {indices : List Nat} (h : ∀ k ∈ indices, IsIndex list k) (width : Nat) :
    List.Forall₂ (fun k row => ∀ rest, outcomeRow width (list.map Outcome.payoffs)
        ([.word (digits k)] ++ rest) = .ok (row, rest))
      indices (indices.map (payoffsOf width list)) := by
  refine List.forall₂_map_right_iff.mpr (List.forall₂_same.mpr fun k hk rest => ?_)
  rw [List.singleton_append, outcomeRow_digits, if_pos (h k hk)]

end

/-! ## §3. Files with outcomes -/

/-- **Files that list outcomes.**  After a header, and a comment if there is one, a file
lists outcomes, each with a number for every player, and one number of an outcome for every
pure profile.  If all of these name outcomes, the file is read as the same game as the file
that has the numbers of the outcomes, or zeros for number zero, in their place.  Otherwise
the first one that does not is the error: as an unknown outcome if it is a machine word,
and as no number if it is not. -/
theorem readGame_outcomeFile {head : List Token} {title : String} {players : List PlayerInfo}
    {indices : List Nat} (hhead : IsHeader head title players indices.length)
    (comment : Option String) {list : List Outcome}
    (hlist : ∀ o ∈ list, o.IsReadable players.length) {cs : List Char}
    (hcs : tokens? cs = some (head ++ quotes comment.toList ++ outcomeTokens list indices)) :
    ((∀ k ∈ indices, IsIndex list k) → ∀ cs', tokens? cs' = some (head ++ quotes comment.toList
        ++ (indices.map (numbersOf players.length list)).flatMap words) →
      ∃ g, Nfg.readGame cs = .ok g ∧ Nfg.readGame cs' = .ok g)
    ∧ ∀ before k after, indices = before ++ k :: after → (∀ j ∈ before, IsIndex list j) →
      ¬ IsIndex list k → Nfg.readGame cs
        = .error (if k < UInt64.size then .unknownOutcome k else .invalidNumber (numeral k)) := by
  have hbrace : ∀ text, (outcomeTokens list indices).head? ≠ some (.quoted text) := by
    intro text hquoted
    cases hquoted
  have hfile := hhead.readTokens_eq comment hbrace
  rw [readTable, payoffRows_outcomeTokens hlist] at hfile
  constructor
  · intro hindices cs' hcs'
    have htimes := times_of_forall₂ (forall₂_outcomeRow hindices players.length) []
    rw [List.append_nil] at htimes
    have hrows : List.Forall₂ (List.Forall₂ Denotes) (indices.map (numbersOf players.length list))
        (indices.map (payoffsOf players.length list)) := by
      refine List.forall₂_map_left_iff.mpr (List.forall₂_map_right_iff.mpr ?_)
      exact List.forall₂_same.mpr fun k hk => (denotes_numbersOf hlist (hindices k hk)).1
    have hwidth : ∀ row ∈ indices.map (numbersOf players.length list),
        row.length = players.length := by
      intro row hrow
      obtain ⟨k, hk, rfl⟩ := List.mem_map.mp hrow
      exact (denotes_numbersOf hlist (hindices k hk)).2
    rw [← List.length_map (numbersOf players.length list)] at hhead
    obtain ⟨hread, g, hg⟩ := hhead.readTokens_words comment hrows hwidth
    refine ⟨g, ?_, ?_⟩
    · rw [readGame, hcs]
      show readTokens _ = _
      rw [hfile, htimes]
      exact hg
    · rw [readGame, hcs']
      exact hread.trans hg
  · rintro before k after rfl hbefore hk
    have hstop : outcomeRow players.length (list.map Outcome.payoffs)
        ((k :: after).flatMap fun k => [.word (digits k)]) = .error (indexError k) := by
      rw [List.flatMap_cons, List.singleton_append, outcomeRow_digits, if_neg hk]
    have hlt : before.length < (before ++ k :: after).length := by simp
    have htimes := times_eq_error (forall₂_outcomeRow hbefore players.length) hlt hstop
    rw [readGame, hcs]
    show readTokens _ = _
    rw [hfile, List.flatMap_append, htimes]
    rfl

/-- The header of a file with two players, the first of whom has two strategies. -/
def pairHead : List Token :=
  [.word ['N', 'F', 'G'], .word ['1'], .word ['D'], .quoted ['T']]
    ++ braced (quotes ["A", "B"]) ++ braced (words [['2'], ['1']])

theorem isHeader_pairHead :
    IsHeader pairHead "T" [.numbered "A" 2, .numbered "B" 1] 2 where
  preamble_eq := by decide +kernel
  players_ne_nil := by decide
  strategies_ne_nil := by decide
  countProfiles?_eq := by decide

/-- Two outcomes for them. -/
def pairOutcomes : List Outcome :=
  [⟨['o'], ["1".toList, "2/3".toList]⟩, ⟨[], ["-.5".toList, "1e2".toList]⟩]

theorem readGame_outcomeFile_pair :
    (∃ g, Nfg.readGame ("NFG 1 D \"T\" \x7b\"A\" \"B\"\x7d \x7b2 1\x7d \"c\" "
          ++ "\x7b\x7b\"o\" 1 2/3\x7d \x7b\"\" -.5, 1e2\x7d\x7d 2 0").toList = .ok g
        ∧ Nfg.readGame ("NFG 1 D \"T\" \x7b\"A\" \"B\"\x7d \x7b2 1\x7d \"c\" "
          ++ "-.5 1e2 0 0").toList = .ok g)
      ∧ Nfg.readGame ("NFG 1 D \"T\" \x7b\"A\" \"B\"\x7d \x7b2 1\x7d \"c\" "
          ++ "\x7b\x7b\"o\" 1 2/3\x7d \x7b\"\" -.5, 1e2\x7d\x7d 2 3").toList
        = .error (.unknownOutcome 3) := by
  have hhead : ∀ k l : Nat, IsHeader pairHead "T" [.numbered "A" 2, .numbered "B" 1]
      [k, l].length := fun _ _ => isHeader_pairHead
  have hlist : ∀ o ∈ pairOutcomes, o.IsReadable 2 := by decide +kernel
  have hgood : tokens? ("NFG 1 D \"T\" \x7b\"A\" \"B\"\x7d \x7b2 1\x7d \"c\" "
      ++ "\x7b\x7b\"o\" 1 2/3\x7d \x7b\"\" -.5, 1e2\x7d\x7d 2 0").toList
      = some (pairHead ++ quotes (some "c").toList ++ outcomeTokens pairOutcomes [2, 0]) := by
    decide +kernel
  have hbad : tokens? ("NFG 1 D \"T\" \x7b\"A\" \"B\"\x7d \x7b2 1\x7d \"c\" "
      ++ "\x7b\x7b\"o\" 1 2/3\x7d \x7b\"\" -.5, 1e2\x7d\x7d 2 3").toList
      = some (pairHead ++ quotes (some "c").toList ++ outcomeTokens pairOutcomes [2, 3]) := by
    decide +kernel
  have hsame := (readGame_outcomeFile (hhead 2 0) (some "c") hlist hgood).1
  have herror := (readGame_outcomeFile (hhead 2 3) (some "c") hlist hbad).2
  exact ⟨hsame (by decide) _ (by decide +kernel), herror [2] 3 [] rfl (by decide) (by decide)⟩

/-- A file with one outcome, and a number beyond it that is no machine word. -/
def farIndex : List Char :=
  ("NFG 1 R \"\" \x7b \"A\" \x7d \x7b 1 \x7d \x7b \x7b \"o\" 1 \x7d \x7d "
    ++ "18446744073709551616").toList

/-- **Not every number beyond the last outcome is an unknown outcome.** -/
theorem not_forall_unknownOutcome :
    ∃ head : List Token, IsHeader head "" [.numbered "A" 1] 1
      ∧ (⟨['o'], [['1']]⟩ : Outcome).IsReadable 1
      ∧ tokens? farIndex
        = some (head ++ outcomeTokens [⟨['o'], [['1']]⟩] [18446744073709551616])
      ∧ Nfg.readGame farIndex = .error (.invalidNumber "18446744073709551616")
      ∧ Nfg.readGame farIndex ≠ .error (.unknownOutcome 18446744073709551616) := by
  refine ⟨[.word ['N', 'F', 'G'], .word ['1'], .word ['R'], .quoted []] ++ braced (quotes ["A"])
    ++ braced (words [['1']]), ⟨by decide +kernel, by decide, by decide, by decide⟩, ?_, ?_,
    by decide +kernel, by decide +kernel⟩
  · decide +kernel
  · decide +kernel

end SimplicialNash.Nfg
