/-
  SimplicialNash.Text.Blank
  ─────────────────────────
  Blank characters and trimming.

  Every reader of this library skips the same characters: those with the
  Unicode property White_Space.  Texts are lists of characters here, so that
  a reader is a function on lists and its laws are proved by induction.

  Main statements: what trimming leaves neither starts nor ends with a blank
  character (`head_trimStart_not_blank`), and trimming twice is trimming once
  (`trimStart_trimStart`).
-/

namespace SimplicialNash.Text

/-! ## §1. The property -/

/-- The characters with the property White_Space: the control characters from
tab to carriage return, the space, next line, and the spaces and separators
beyond Latin-1. -/
def isBlank (c : Char) : Bool :=
  let n := c.toNat
  (9 ≤ n && n ≤ 13) || n == 0x20 || n == 0x85 || n == 0xA0 || n == 0x1680
    || (0x2000 ≤ n && n ≤ 0x200A) || n == 0x2028 || n == 0x2029
    || n == 0x202F || n == 0x205F || n == 0x3000

/-- A text with nothing but blank characters. -/
def isBlankText (cs : List Char) : Bool := cs.all isBlank

/-! ## §2. Trimming -/

/-- The text without its leading blank characters. -/
def trimStart (cs : List Char) : List Char := cs.dropWhile isBlank

/-- The text without its trailing blank characters. -/
def trimEnd (cs : List Char) : List Char := (cs.reverse.dropWhile isBlank).reverse

/-- The text without its leading and trailing blank characters. -/
def trim (cs : List Char) : List Char := trimEnd (trimStart cs)

@[simp] theorem trimStart_nil : trimStart [] = [] := rfl

@[simp] theorem trimEnd_nil : trimEnd [] = [] := rfl

/-- What trimming the front leaves does not start with a blank character. -/
theorem head_trimStart_not_blank {cs : List Char} {c : Char} {r : List Char}
    (h : trimStart cs = c :: r) : isBlank c = false := by
  induction cs with
  | nil => simp [trimStart] at h
  | cons d ds ih =>
    by_cases hd : isBlank d
    · exact ih (by simpa [trimStart, hd] using h)
    · have : d = c := by
        have := congrArg List.head? h
        simpa [trimStart, hd] using this
      simpa [this] using hd

/-- Trimming the front twice is trimming it once. -/
@[simp] theorem trimStart_trimStart (cs : List Char) :
    trimStart (trimStart cs) = trimStart cs := by
  cases h : trimStart cs with
  | nil => rfl
  | cons c r => simp [trimStart, head_trimStart_not_blank h]

/-- A text is blank exactly when trimming its front leaves nothing. -/
theorem trimStart_eq_nil_iff (cs : List Char) :
    trimStart cs = [] ↔ isBlankText cs = true := by
  induction cs with
  | nil => simp [trimStart, isBlankText]
  | cons c r ih =>
    by_cases hc : isBlank c
    · have ht : trimStart (c :: r) = trimStart r := by simp [trimStart, hc]
      have hb : isBlankText (c :: r) = isBlankText r := by simp [isBlankText, hc]
      rw [ht, hb]
      exact ih
    · simp [trimStart, isBlankText, hc]

end SimplicialNash.Text
