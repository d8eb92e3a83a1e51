/-
  SimplicialNash.Proofs.Nfg.Token
  ───────────────────────────────
  **Tokens that are written are found again.**

  A text spells tokens if they are written in it one after another, with separators
  before, between and after them (`Spells`).  Within quotes a backslash stands before
  every quote and every backslash.  Separators may be missing except between words: a
  word ends where a character follows that no word has.

  The scanner comes out of a quoted text and of a brace between two tokens, and out of a
  word with the next character (`Scanner.finish?_foldl_inWord`), so it finds the tokens of
  whatever spells them.

  Main statement: `Spells.tokens?_eq`.
-/
import SimplicialNash.Nfg.Token

namespace SimplicialNash.Nfg

/-! ## §1. Spelling -/

/-- A character as it is written within quotes. -/
def escapeChar (c : Char) : List Char := if c = '"' ∨ c = '\\' then ['\\', c] else [c]

namespace Token

/-- A token as it is written. -/
def spelling : Token → List Char
  | .opening => ['\x7b']
  | .closing => ['\x7d']
  | .quoted text => '"' :: text.flatMap escapeChar ++ ['"']
  | .word text => text

/-- A token that can be written: words have characters, and none that ends a word. -/
def IsWritable : Token → Prop
  | .word text => text ≠ [] ∧ ∀ c ∈ text, isWordChar c = true
  | _ => True

/-- Whether a token ends only with the next character. -/
def isWord : Token → Bool
  | .word _ => true
  | _ => false

end Token

/-- Separators and nothing else. -/
def IsGap (cs : List Char) : Prop := ∀ c ∈ cs, isSeparator c = true

/-- A text in which tokens are written one after another. -/
inductive Spells : List Char → List Token → Prop
  | gap {gap : List Char} (h : IsGap gap) : Spells gap []
  | token {gap rest : List Char} {t : Token} {ts : List Token} (hgap : IsGap gap)
      (hend : t.isWord = true → ∀ c ∈ rest.head?, isWordChar c = false)
      (hrest : Spells rest ts) : Spells (gap ++ t.spelling ++ rest) (t :: ts)

/-- Tokens, each with what follows it up to the next one. -/
def spaced (items : List (Token × List Char)) : List Char :=
  items.flatMap fun (t, gap) => t.spelling ++ gap

/-- A separator is part of no word. -/
theorem isWordChar_of_isSeparator {c : Char} (h : isSeparator c = true) : isWordChar c = false := by
  rw [isWordChar, h]
  rfl

/-- **With separators after every token** tokens are spelled. -/
theorem spells_spaced {lead : List Char} {items : List (Token × List Char)} (hlead : IsGap lead)
    (h : ∀ item ∈ items, item.2 ≠ [] ∧ IsGap item.2) :
    Spells (lead ++ spaced items) (items.map Prod.fst) := by
  induction items generalizing lead with
  | nil => exact .gap (by rwa [spaced, List.flatMap_nil, List.append_nil])
  | cons item items ih =>
    obtain ⟨t, gap⟩ := item
    obtain ⟨hne, hgap⟩ := h _ List.mem_cons_self
    have hrest := ih hgap fun item hitem => h item (List.mem_cons_of_mem _ hitem)
    have htext : lead ++ spaced ((t, gap) :: items) = lead ++ t.spelling ++ (gap ++ spaced items) := by
      simp only [spaced, List.flatMap_cons, List.append_assoc]
    rw [htext]
    refine .token hlead (fun _ c hc => ?_) hrest
    obtain ⟨c', gap, rfl⟩ := List.exists_cons_of_ne_nil hne
    obtain rfl : c' = c := Option.some.inj hc
    exact isWordChar_of_isSeparator (hgap c' List.mem_cons_self)

/-! ## §2. Scanning -/

namespace Scanner

variable {found : List Token} {text rest : List Char} {c : Char}

/-- Separators leave the scanner between two tokens. -/
theorem foldl_gap {gap : List Char} (h : IsGap gap) (found : List Token) :
    gap.foldl step ⟨.between, found⟩ = ⟨.between, found⟩ := by
  induction gap with
  | nil => rfl
  | cons c gap ih =>
    have hc : step ⟨.between, found⟩ c = ⟨.between, found⟩ := if_pos (h c List.mem_cons_self)
    rw [List.foldl_cons, hc]
    exact ih fun d hd => h d (List.mem_cons_of_mem c hd)

/-- **A written character** is taken as it is. -/
theorem foldl_escapeChar (c : Char) (text : List Char) (found : List Token) :
    (escapeChar c).foldl step ⟨.inQuotes text, found⟩ = ⟨.inQuotes (c :: text), found⟩ := by
  unfold escapeChar
  by_cases hquote : c = '"'
  · subst hquote
    rfl
  by_cases hbackslash : c = '\\'
  · subst hbackslash
    rfl
  · rw [if_neg (not_or.mpr ⟨hquote, hbackslash⟩)]
    simp only [List.foldl_cons, List.foldl_nil, step]
    rw [if_neg hquote, if_neg hbackslash]

theorem foldl_flatMap_escapeChar (written text : List Char) (found : List Token) :
    (written.flatMap escapeChar).foldl step ⟨.inQuotes text, found⟩
      = ⟨.inQuotes (written.reverse ++ text), found⟩ := by
  induction written generalizing text with
  | nil => rfl
  | cons c written ih =>
    rw [List.flatMap_cons, List.foldl_append, foldl_escapeChar, ih, List.reverse_cons,
      List.append_assoc, List.singleton_append]

theorem foldl_quoted (text : List Char) (found : List Token) :
    (Token.quoted text).spelling.foldl step ⟨.between, found⟩
      = ⟨.between, .quoted text :: found⟩ := by
  show (text.flatMap escapeChar ++ ['"']).foldl step ⟨.inQuotes [], found⟩ = _
  rw [List.foldl_append, foldl_flatMap_escapeChar, List.append_nil]
  show Scanner.mk .between (.quoted text.reverse.reverse :: found) = _
  rw [List.reverse_reverse]

/-- A word begins with any of its characters. -/
theorem begin_of_isWordChar (hc : isWordChar c = true) (found : List Token) :
    begin found c = ⟨.inWord [c], found⟩ := by
  simp only [isWordChar, Bool.not_eq_true', Bool.or_eq_false_iff, beq_eq_false_iff_ne] at hc
  obtain ⟨⟨⟨hseparator, hopening⟩, hclosing⟩, hquote⟩ := hc
  rw [begin, if_neg (Bool.eq_false_iff.mp hseparator), if_neg hopening, if_neg hclosing,
    if_neg hquote]

theorem foldl_inWord {word : List Char} (h : ∀ c ∈ word, isWordChar c = true) (text : List Char)
    (found : List Token) :
    word.foldl step ⟨.inWord text, found⟩ = ⟨.inWord (word.reverse ++ text), found⟩ := by
  induction word generalizing text with
  | nil => rfl
  | cons c word ih =>
    have hc : step ⟨.inWord text, found⟩ c = ⟨.inWord (c :: text), found⟩ :=
      if_pos (h c List.mem_cons_self)
    rw [List.foldl_cons, hc, ih fun d hd => h d (List.mem_cons_of_mem c hd), List.reverse_cons,
      List.append_assoc, List.singleton_append]

/-- **A word ends** where a character follows that no word has, and at the end of the text. -/
theorem finish?_foldl_inWord (hend : ∀ c ∈ rest.head?, isWordChar c = false) (text : List Char)
    (found : List Token) :
    (rest.foldl step ⟨.inWord text, found⟩).finish?
      = (rest.foldl step ⟨.between, .word text.reverse :: found⟩).finish? := by
  cases rest with
  | nil => rfl
  | cons c rest =>
    have hc : step ⟨.inWord text, found⟩ c = begin (.word text.reverse :: found) c :=
      if_neg (Bool.eq_false_iff.mp (hend c rfl))
    rw [List.foldl_cons, hc]
    rfl

/-- **A written token** is found. -/
theorem finish?_foldl_spelling {t : Token} (ht : t.IsWritable)
    (hend : t.isWord = true → ∀ c ∈ rest.head?, isWordChar c = false) (found : List Token) :
    ((t.spelling ++ rest).foldl step ⟨.between, found⟩).finish?
      = (rest.foldl step ⟨.between, t :: found⟩).finish? := by
  rw [List.foldl_append]
  cases t with
  | opening => rfl
  | closing => rfl
  | quoted text => rw [foldl_quoted]
  | word text =>
    obtain ⟨hne, hword⟩ := ht
    obtain ⟨c, cs, rfl⟩ := List.exists_cons_of_ne_nil hne
    have hfirst : step ⟨.between, found⟩ c = ⟨.inWord [c], found⟩ :=
      begin_of_isWordChar (hword c List.mem_cons_self) found
    rw [Token.spelling, List.foldl_cons, hfirst,
      foldl_inWord (fun d hd => hword d (List.mem_cons_of_mem c hd)), finish?_foldl_inWord (hend rfl),
      List.reverse_append, List.reverse_reverse]
    rfl

end Scanner

/-- **The tokens of a text** are those that it spells. -/
theorem Spells.tokens?_eq {cs : List Char} {ts : List Token} (h : Spells cs ts)
    (hwritable : ∀ t ∈ ts, t.IsWritable) : tokens? cs = some ts := by
  have hfound : ∀ found, (cs.foldl Scanner.step ⟨.between, found⟩).finish?
      = some (found.reverse ++ ts) := by
    induction h with
    | gap hgap =>
      intro found
      rw [Scanner.foldl_gap hgap, List.append_nil]
      rfl
    | @token gap rest t ts hgap hend _ ih =>
      intro found
      obtain ⟨ht, hrest⟩ := List.forall_mem_cons.mp hwritable
      rw [List.append_assoc, List.foldl_append, Scanner.foldl_gap hgap,
        Scanner.finish?_foldl_spelling ht hend, ih hrest, List.reverse_cons, List.append_assoc,
        List.singleton_append]
  exact hfound []

end SimplicialNash.Nfg
