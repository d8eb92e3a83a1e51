/-
  SimplicialNash.Proofs.Text
  ──────────────────────────
  Texts that are put together and taken apart again.

  Trimming stops at the first character that is not blank, from either side
  (`trimStart_append_cons`, `trimEnd_append_cons`).  Parts without separators, joined by
  separators, are the fields of the whole (`fields_intercalate`).  A line without line
  feeds, ended by one, is the first line of a text; a carriage return at its end is taken
  for a part of the line's end (`lines_append`).  So each line of a text is found from its
  own characters, and from no others (`getElem?_lines_set`).
-/
import SimplicialNash.Text.Blank
import SimplicialNash.Text.Lines

namespace SimplicialNash.Text

variable {c separator : Char} {cs rest : List Char}

/-! ## §1. Trimming -/

/-- Trimming the front stops at a character that is not blank. -/
theorem trimStart_append_cons (hc : isBlank c = false) (cs rest : List Char) :
    trimStart (cs ++ c :: rest) = trimStart cs ++ c :: rest := by
  unfold trimStart
  induction cs with
  | nil => simp [hc]
  | cons d ds ih =>
    by_cases hd : isBlank d
    · simp [hd, ih]
    · simp [hd]

/-- So does trimming the end. -/
theorem trimEnd_append_cons (hc : isBlank c = false) (cs rest : List Char) :
    trimEnd (cs ++ c :: rest) = cs ++ c :: trimEnd rest := by
  have h : (cs ++ c :: rest).reverse = rest.reverse ++ c :: cs.reverse := by simp
  have hstop := trimStart_append_cons hc rest.reverse cs.reverse
  unfold trimStart at hstop
  unfold trimEnd
  rw [h, hstop]
  simp

/-- Nothing is trimmed off a text without blank characters. -/
theorem trimEnd_eq_self (h : ∀ c ∈ cs, isBlank c = false) : trimEnd cs = cs := by
  induction cs with
  | nil => rfl
  | cons c cs ih =>
    have hrest := ih fun d hd => h d (List.mem_cons_of_mem c hd)
    have hcons := trimEnd_append_cons (h c List.mem_cons_self) [] cs
    rw [List.nil_append, List.nil_append, hrest] at hcons
    exact hcons

theorem trim_eq_self (h : ∀ c ∈ cs, isBlank c = false) : trim cs = cs := by
  have hstart : trimStart cs = cs := by
    cases cs with
    | nil => rfl
    | cons c cs => simp [trimStart, h c List.mem_cons_self]
  rw [trim, hstart, trimEnd_eq_self h]

/-- What trimming the front leaves was there before. -/
theorem mem_of_mem_trimStart (h : c ∈ trimStart cs) : c ∈ cs :=
  (List.dropWhile_sublist isBlank).subset h

/-! ## §2. Fields -/

/-- **Parts that are joined** are the fields of the whole. -/
theorem fields_intercalate {parts : List (List Char)} (hne : parts ≠ [])
    (h : ∀ part ∈ parts, separator ∉ part) :
    fields separator ([separator].intercalate parts) = parts := by
  induction parts with
  | nil => exact absurd rfl hne
  | cons part parts ih =>
    have hpart := h part List.mem_cons_self
    cases parts with
    | nil => simpa using fields_eq_singleton separator part hpart
    | cons next parts =>
      have hrest := ih (List.cons_ne_nil _ _) fun p hp => h p (List.mem_cons_of_mem part hp)
      rw [List.intercalate_cons_cons, List.append_assoc, List.singleton_append,
        fields_append separator part _ hpart, hrest]

/-- A cut leaves out one character, and it is the first of its kind. -/
theorem exists_of_cutAt? {p : Char → Bool} {before after : List Char}
    (h : cutAt? p cs = some (before, after)) :
    ∃ c, cs = before ++ c :: after ∧ p c = true ∧ ∀ d ∈ before, p d = false := by
  induction cs generalizing before with
  | nil => cases h
  | cons c cs ih =>
    unfold cutAt? at h
    split at h
    · next hc =>
      obtain ⟨rfl, rfl⟩ := Prod.mk.inj (Option.some.inj h)
      exact ⟨c, rfl, hc, fun d hd => absurd hd List.not_mem_nil⟩
    · next hc =>
      obtain ⟨⟨before', after'⟩, hcut, hpair⟩ := Option.map_eq_some_iff.mp h
      obtain ⟨rfl, rfl⟩ := Prod.mk.inj hpair
      obtain ⟨d, rfl, hd, hbefore⟩ := ih hcut
      exact ⟨d, rfl, hd, List.forall_mem_cons.mpr ⟨Bool.eq_false_iff.mpr hc, hbefore⟩⟩

/-- A text without separators is not cut. -/
theorem cutAt?_separator_eq_none_iff : cutAt? (· == separator) cs = none ↔ separator ∉ cs := by
  simp only [cutAt?_eq_none_iff, beq_eq_false_iff_ne]
  exact ⟨fun h hmem => h separator hmem rfl, fun h c hc hsep => h (hsep ▸ hc)⟩

/-- Any other text is cut at its first separator. -/
theorem cutAt?_separator_eq_some_iff {before after : List Char} :
    cutAt? (· == separator) cs = some (before, after)
      ↔ cs = before ++ separator :: after ∧ separator ∉ before := by
  rw [← cutAt?_separator_eq_none_iff, cutAt?_eq_none_iff]
  constructor
  · intro h
    obtain ⟨c, rfl, hc, hbefore⟩ := exists_of_cutAt? h
    obtain rfl : c = separator := beq_iff_eq.mp hc
    exact ⟨rfl, hbefore⟩
  · rintro ⟨rfl, hbefore⟩
    exact cutAt?_append _ before after separator hbefore (beq_self_eq_true separator)

/-! ## §3. Lines -/

/-- A character that does not end the line belongs to it. -/
theorem lines_cons {l : List Char} {ls : List (List Char)} (hc : c ≠ '\n')
    (hreturn : c = '\r' → rest.head? ≠ some '\n') (h : lines rest = l :: ls) :
    lines (c :: rest) = (c :: l) :: ls := by
  rw [lines.eq_4, h]
  · exact hc
  · rintro tail rfl rfl
    exact hreturn rfl rfl

/-- **The first line of a text.**  A line ends at its line feed, or at the carriage
return before it, whatever follows. -/
theorem lines_append (h : '\n' ∉ cs) :
    ∃ l, (∀ rest, lines (cs ++ '\n' :: rest) = l :: lines rest) ∧ (l = cs ∨ cs = l ++ ['\r']) := by
  induction cs with
  | nil => exact ⟨[], lines_lineFeed, Or.inl rfl⟩
  | cons c cs ih =>
    rw [List.mem_cons, not_or] at h
    by_cases hend : c = '\r' ∧ cs = []
    · -- the carriage return is a part of the line's end
      obtain ⟨rfl, rfl⟩ := hend
      exact ⟨[], fun rest => by simp [lines], Or.inr rfl⟩
    · obtain ⟨l, hl, hcs⟩ := ih h.2
      refine ⟨c :: l, fun rest => ?_, ?_⟩
      · refine lines_cons (Ne.symm h.1) (fun hreturn hhead => ?_) (hl rest)
        cases cs with
        | nil => exact hend ⟨hreturn, rfl⟩
        | cons d cs =>
          obtain rfl : d = '\n' := Option.some.inj hhead
          exact h.2 List.mem_cons_self
      · rcases hcs with rfl | rfl
        · exact Or.inl rfl
        · exact Or.inr rfl

/-- **The last line of a text** may do without an end. -/
theorem lines_eq_singleton (hne : cs ≠ []) (h : '\n' ∉ cs) : lines cs = [cs] := by
  induction cs with
  | nil => exact absurd rfl hne
  | cons c cs ih =>
    rw [List.mem_cons, not_or] at h
    cases cs with
    | nil =>
      rw [lines.eq_4]
      · rfl
      · exact Ne.symm h.1
      · rintro tail - hnil
        cases hnil
    | cons d cs =>
      refine lines_cons (Ne.symm h.1) (fun _ hhead => ?_) (ih (List.cons_ne_nil _ _) h.2)
      obtain rfl : d = '\n' := Option.some.inj hhead
      exact h.2 List.mem_cons_self

/-- A text without line feeds has at most one line. -/
theorem getElem?_lines_succ (h : '\n' ∉ cs) (i : Nat) : (lines cs)[i + 1]? = none := by
  cases cs with
  | nil => rfl
  | cons c cs =>
    rw [lines_eq_singleton (List.cons_ne_nil c cs) h]
    rfl

/-- The first of several lines. -/
theorem lines_intercalate_cons (h : '\n' ∉ cs) :
    ∃ l, ∀ texts ≠ [], lines (['\n'].intercalate (cs :: texts))
      = l :: lines (['\n'].intercalate texts) := by
  obtain ⟨l, hl, -⟩ := lines_append h
  refine ⟨l, fun texts hne => ?_⟩
  rw [List.intercalate_cons_of_ne_nil hne, List.append_assoc, List.singleton_append, hl]

/-- **A line does not depend on the texts of the others.** -/
theorem getElem?_lines_set {texts : List (List Char)} (h : ∀ text ∈ texts, '\n' ∉ text)
    (hcs : '\n' ∉ cs) {i j : Nat} (hij : j ≠ i) :
    (lines (['\n'].intercalate (texts.set i cs)))[j]? = (lines (['\n'].intercalate texts))[j]? := by
  induction texts generalizing i j with
  | nil => rfl
  | cons text texts ih =>
    obtain ⟨htext, htexts⟩ := List.forall_mem_cons.mp h
    by_cases hlast : texts = []
    · subst hlast
      cases i with
      | zero =>
        obtain ⟨j, rfl⟩ := Nat.exists_eq_succ_of_ne_zero hij
        rw [List.set_cons_zero, List.intercalate_singleton, List.intercalate_singleton,
          getElem?_lines_succ hcs, getElem?_lines_succ htext]
      | succ i => rfl
    obtain ⟨l, hl⟩ := lines_intercalate_cons htext
    cases i with
    | zero =>
      -- the first line is another one, and the others follow it as before
      obtain ⟨l', hl'⟩ := lines_intercalate_cons hcs
      obtain ⟨j, rfl⟩ := Nat.exists_eq_succ_of_ne_zero hij
      rw [List.set_cons_zero, hl texts hlast, hl' texts hlast, List.getElem?_cons_succ,
        List.getElem?_cons_succ]
    | succ i =>
      have hset : texts.set i cs ≠ [] := mt (List.set_eq_nil_iff i cs).mp hlast
      rw [List.set_cons_succ, hl _ hset, hl texts hlast]
      cases j with
      | zero => rfl
      | succ j => exact ih htexts fun h => hij (congrArg Nat.succ h)

end SimplicialNash.Text
