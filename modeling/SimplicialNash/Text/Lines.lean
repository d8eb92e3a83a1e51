/-
  SimplicialNash.Text.Lines
  ─────────────────────────
  Cutting a text into lines and a line into fields.

  A line ends at a line feed, or at a carriage return directly followed by a
  line feed; a lone carriage return is an ordinary character.  The end of the
  last line may be missing.

  Main statement: lines written one after another, each ended by a line feed,
  are read back as they were (`lines_append_lineFeed`).
-/

namespace SimplicialNash.Text

/-! ## §1. Lines -/

/-- The lines of a text, without their ends. -/
def lines : List Char → List (List Char)
  | [] => []
  | '\n' :: rest => [] :: lines rest
  | '\r' :: '\n' :: rest => [] :: lines rest
  | c :: rest =>
    match lines rest with
    | [] => [[c]]
    | l :: ls => (c :: l) :: ls

@[simp] theorem lines_nil : lines [] = [] := rfl

@[simp] theorem lines_lineFeed (rest : List Char) :
    lines ('\n' :: rest) = [] :: lines rest := by
  simp [lines]

/-- A line without line ends, ended by a line feed, is read back whole. -/
theorem lines_append_lineFeed (l rest : List Char)
    (h : ∀ c ∈ l, c ≠ '\n' ∧ c ≠ '\r') :
    lines (l ++ '\n' :: rest) = l :: lines rest := by
  induction l with
  | nil => simp
  | cons c cs ih =>
    have hc := h c (by simp)
    have ih' := ih (fun d hd => h d (by simp [hd]))
    rw [List.cons_append, lines.eq_4]
    · rw [ih']
    · exact hc.1
    · intro _ h'
      exact absurd h' hc.2

/-! ## §2. Fields -/

/-- The parts of a text between the occurrences of a separator; a text without
one is a single part. -/
def fields (separator : Char) : List Char → List (List Char)
  | [] => [[]]
  | c :: rest =>
    if c = separator then [] :: fields separator rest
    else match fields separator rest with
      | [] => [[c]]
      | f :: fs => (c :: f) :: fs

/-- A part without separators, followed by a separator, is read back whole. -/
theorem fields_append (separator : Char) (f rest : List Char) (h : separator ∉ f) :
    fields separator (f ++ separator :: rest) = f :: fields separator rest := by
  induction f with
  | nil => simp [fields]
  | cons c cs ih =>
    simp only [List.mem_cons, not_or] at h
    simp [fields, Ne.symm h.1, ih h.2]

/-- A text without separators is a single part. -/
theorem fields_eq_singleton (separator : Char) (f : List Char) (h : separator ∉ f) :
    fields separator f = [f] := by
  induction f with
  | nil => simp [fields]
  | cons c cs ih =>
    simp only [List.mem_cons, not_or] at h
    simp [fields, Ne.symm h.1, ih h.2]

/-- The text before and the text after the first character that satisfies `p`. -/
def cutAt? (p : Char → Bool) : List Char → Option (List Char × List Char)
  | [] => none
  | c :: rest =>
    if p c then some ([], rest)
    else (cutAt? p rest).map fun (before, after) => (c :: before, after)

theorem cutAt?_eq_none_iff (p : Char → Bool) (cs : List Char) :
    cutAt? p cs = none ↔ ∀ c ∈ cs, p c = false := by
  induction cs with
  | nil => simp [cutAt?]
  | cons c r ih =>
    by_cases hc : p c
    · simp [cutAt?, hc]
    · simp [cutAt?, hc, ih]

/-- The cut is at the first character that satisfies `p`. -/
theorem cutAt?_append (p : Char → Bool) (a b : List Char) (c : Char)
    (ha : ∀ d ∈ a, p d = false) (hc : p c = true) :
    cutAt? p (a ++ c :: b) = some (a, b) := by
  induction a with
  | nil => simp [cutAt?, hc]
  | cons d ds ih =>
    have hd := ha d (by simp)
    simp [cutAt?, hd, ih (fun e he => ha e (by simp [he]))]

end SimplicialNash.Text
