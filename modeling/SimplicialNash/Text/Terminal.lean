/-
  SimplicialNash.Text.Terminal
  ────────────────────────────
  Texts without what a terminal would obey.

  A terminal does not show every character: some are controls, and the escape
  character begins a sequence that may go on for many characters.  How a
  sequence ends depends on how it begins:

      escape, intermediates, one more            a short sequence
      escape [ ... final                         a control sequence
      escape P ..., X ..., ^ ..., _ ...          a string, up to its terminator
      escape ] ...                               a command, up to a bell

  The escape character itself always begins anew, and the two characters for
  cancelling end every sequence.  Tabs and line ends are obeyed even within a
  short sequence or a control sequence: they interrupt it, and what follows is
  shown until a control character takes the sequence up again.

  Main statements: nothing but shown characters is left
  (`isShown_of_mem_visible`), and a text of shown characters is left alone
  (`visible_eq_self`).
-/

namespace SimplicialNash.Text.Terminal

/-! ## §1. Characters -/

/-- The characters that move on within or to another line. -/
def isMotion (c : Char) : Bool := c == '\t' || c == '\n' || c == '\x0c' || c == '\r'

/-- The characters that are not controls of a terminal. -/
def isShown (c : Char) : Bool := isMotion c || (0x20 ≤ c.toNat && c.toNat != 0x7f)

/-- The characters between the beginning and the end of a short sequence. -/
def isIntermediate (c : Char) : Bool := 0x20 ≤ c.toNat && c.toNat ≤ 0x2f

/-- The characters of a control sequence's parameters. -/
def isParameter (c : Char) : Bool := 0x30 ≤ c.toNat && c.toNat ≤ 0x3f

/-- The parameters that may stand only at the beginning of them all. -/
def isPrivate (c : Char) : Bool := 0x3c ≤ c.toNat && c.toNat ≤ 0x3f

/-- The characters that end a control sequence. -/
def isFinal (c : Char) : Bool := 0x40 ≤ c.toNat && c.toNat ≤ 0x7e

/-- Whether the byte that terminates a string occurs in a character's
encoding. -/
def hasTerminator (c : Char) : Bool := (String.utf8EncodeChar c).contains 0x9c

/-! ## §2. Sequences -/

/-- Where a text stands with respect to sequences. -/
inductive Place where
  /-- Outside of all sequences. -/
  | plain
  /-- Directly after the escape character. -/
  | escape
  /-- After an intermediate of a short sequence. -/
  | intermediate
  /-- Within a control sequence. -/
  | control
  /-- Directly after the beginning of a device's string. -/
  | device
  /-- After a parameter of a device's string. -/
  | deviceParameter
  /-- After an intermediate of a device's string. -/
  | deviceIntermediate
  /-- Within a string that its terminator ends. -/
  | string
  /-- Within a command. -/
  | command
deriving DecidableEq, Repr

namespace Place

/-- Whether tabs and line ends interrupt the sequence. -/
def isInterruptible : Place → Bool
  | .escape | .intermediate | .control => true
  | _ => false

/-- The place after a character that neither begins nor cancels a sequence. -/
def within (p : Place) (c : Char) : Place :=
  match p with
  | .plain => .plain
  | .escape =>
    if isIntermediate c then .intermediate
    else if c == '[' then .control
    else if c == ']' then .command
    else if c == 'P' then .device
    else if c == 'X' || c == '^' || c == '_' then .string
    else if isParameter c || isFinal c then .plain
    else .escape
  | .intermediate => if isParameter c || isFinal c then .plain else .intermediate
  | .control => if isFinal c then .plain else .control
  | .device =>
    if isIntermediate c then .deviceIntermediate
    else if isParameter c then .deviceParameter
    else if isFinal c then .string
    else .device
  | .deviceParameter =>
    if isIntermediate c then .deviceIntermediate
    else if isPrivate c || isFinal c then .string
    else .deviceParameter
  | .deviceIntermediate => if isParameter c || isFinal c then .string else .deviceIntermediate
  | .string => if hasTerminator c then .plain else .string
  | .command => if c == '\x07' then .plain else .command

/-- The place after a character. -/
def next (p : Place) (c : Char) : Place :=
  if c == '\x1b' then .escape
  else if c == '\x18' || c == '\x1a' then .plain
  else p.within c

end Place

/-! ## §3. What is shown -/

/-- A place, and whether the sequence there is interrupted. -/
structure Cursor where
  place : Place
  interrupted : Bool
deriving DecidableEq, Repr

namespace Cursor

/-- The cursor before the first character. -/
def start : Cursor := ⟨.plain, false⟩

/-- Whether a character is shown. -/
def shows (k : Cursor) (c : Char) : Bool :=
  isShown c
    && (k.interrupted || k.place == .plain || (isMotion c && k.place.isInterruptible))

/-- The cursor after a character.  Beyond ASCII a character that is shown ends
an interrupted sequence. -/
def step (k : Cursor) (c : Char) : Cursor :=
  if k.interrupted && isShown c then
    if c.toNat < 0x80 then k else start
  else if isMotion c && k.place.isInterruptible then ⟨k.place, true⟩
  else ⟨k.place.next c, false⟩

end Cursor

/-- The characters that are shown from a cursor on. -/
def visibleFrom : Cursor → List Char → List Char
  | _, [] => []
  | k, c :: rest =>
    if k.shows c then c :: visibleFrom (k.step c) rest else visibleFrom (k.step c) rest

/-- A text without controls and sequences. -/
def visible (cs : List Char) : List Char := visibleFrom .start cs

/-! ## §4. Laws -/

/-- Only shown characters are left. -/
theorem isShown_of_mem_visibleFrom {k : Cursor} {cs : List Char} {c : Char}
    (h : c ∈ visibleFrom k cs) : isShown c = true := by
  induction cs generalizing k with
  | nil => simp [visibleFrom] at h
  | cons d rest ih =>
    unfold visibleFrom at h
    split at h
    · next hd =>
      rcases List.mem_cons.mp h with rfl | h
      · simp only [Cursor.shows, Bool.and_eq_true] at hd
        exact hd.1
      · exact ih h
    · exact ih h

/-- Nothing but shown characters is left of a text. -/
theorem isShown_of_mem_visible {cs : List Char} {c : Char} (h : c ∈ visible cs) :
    isShown c = true :=
  isShown_of_mem_visibleFrom h

/-- A shown character does not begin a sequence. -/
theorem step_start_of_isShown {c : Char} (h : isShown c = true) :
    Cursor.start.step c = Cursor.start := by
  have he : (c == '\x1b') = false := by
    apply Bool.eq_false_iff.mpr
    intro hc
    rw [beq_iff_eq] at hc
    subst hc
    exact absurd h (by decide)
  simp [Cursor.step, Cursor.start, Place.next, Place.within, Place.isInterruptible, he]

/-- A text of shown characters is left alone. -/
theorem visible_eq_self {cs : List Char} (h : ∀ c ∈ cs, isShown c = true) :
    visible cs = cs := by
  induction cs with
  | nil => rfl
  | cons c rest ih =>
    have hc := h c (by simp)
    have hs : Cursor.start.shows c = true := by simp [Cursor.shows, Cursor.start, hc]
    have hr := ih fun d hd => h d (by simp [hd])
    rw [visible, visibleFrom, if_pos hs, step_start_of_isShown hc]
    exact congrArg (c :: ·) hr

end SimplicialNash.Text.Terminal
