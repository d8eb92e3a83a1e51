/-
  SimplicialNash.Proofs.Profile.Text
  ──────────────────────────────────
  **Profiles that are written are read back.**

  A profile line is the label, a comma and the weights with commas in between
  (`Profile.lineChars_exact`).  Of what the reader does to a line, trimming takes at most
  blank characters off the label; the commas cut the rest where they were put
  (`Profile.fields_valuesText`), and each weight is read back exactly
  (`Profile.readValues_rationalText`).  With the label there is one field more than there
  are weights, and it is dropped; without it, no field is.

  In a file, lines are told apart by their ends (`Text.lines_append`), so profiles keep
  their order and the numbers of their lines, however many blank lines stand between them
  (`Profile.readLines_written`).
-/
import SimplicialNash.Profile.Text
import SimplicialNash.Proofs.Deviation
import SimplicialNash.Proofs.Number.Literal

namespace SimplicialNash

open SimplicialNash.Text SimplicialNash.Number

/-- All entries of a table make up the table. -/
theorem StrategyTable.ofList?_toList {shape : Shape} {α : Type} (t : StrategyTable shape α) :
    ofList? shape t.toList = some t := by
  rw [ofList?, dif_pos t.length_toList]
  rfl

namespace Profile

variable {p : Profile} {shape : Shape} {label cs : List Char} {c : Char}

/-! ## §1. Weights -/

/-- Weights that are written are read back. -/
theorem readValues_rationalText (ws : List Rat) : readValues (ws.map rationalText) = .ok ws := by
  induction ws with
  | nil => rfl
  | cons w ws ih =>
    rw [List.map_cons, readValues, readRational_rationalText]
    dsimp only
    rw [ih]

/-- A normalized profile is built from its weights. -/
theorem ofValues_values (hshape : p.shape ≠ []) (hn : p.IsNormalized) :
    ofValues p.shape p.values = .ok p := by
  have hok : ¬ (p.shape = [] ∨ 0 ∈ p.shape) := not_or.mpr ⟨hshape, hn.zero_notMem⟩
  rw [ofValues, if_neg hok, values, StrategyTable.ofList?_toList]
  dsimp only
  rw [(rowsError?_eq_none_iff 0 p.weights.rows).mpr hn]

theorem values_ne_nil (hshape : p.shape ≠ []) (hn : p.IsNormalized) : p.values ≠ [] := by
  have hlength : p.values.length = p.shape.size := StrategyTable.length_toList _
  cases hs : p.shape with
  | nil => exact absurd hs hshape
  | cons n rest =>
    have hpos : n ≠ 0 := fun h0 => hn.zero_notMem (by rw [hs, h0]; exact List.mem_cons_self)
    rw [hs, Shape.size_cons] at hlength
    exact List.ne_nil_of_length_pos (by omega)

/-! ## §2. Lines -/

/-- The weights as exact rationals, with commas in between. -/
def valuesText (p : Profile) : List Char := [','].intercalate (p.values.map rationalText)

/-- A comma before each weight is a comma before the first one and commas in between. -/
theorem flatMap_comma_cons {ws : List Rat} (h : ws ≠ []) :
    (ws.flatMap fun w => ',' :: rationalText w)
      = ',' :: [','].intercalate (ws.map rationalText) := by
  induction ws with
  | nil => exact absurd rfl h
  | cons w ws ih =>
    cases ws with
    | nil => simp
    | cons v ws =>
      have hrest := ih (List.cons_ne_nil v ws)
      rw [List.map_cons] at hrest
      rw [List.flatMap_cons, hrest, List.map_cons, List.map_cons, List.intercalate_cons_cons]
      simp

/-- **A profile line** is the label, a comma and the weights. -/
theorem lineChars_exact (h : p.values ≠ []) (label : List Char) :
    p.lineChars label .exact = label ++ ',' :: p.valuesText := by
  rw [valuesText, ← flatMap_comma_cons h]
  rfl

/-- No character after the label is blank. -/
theorem not_isBlank_of_mem_valuesText (h : p.values ≠ []) (hc : c ∈ ',' :: p.valuesText) :
    isBlank c = false := by
  rw [valuesText, ← flatMap_comma_cons h] at hc
  obtain ⟨w, -, hc⟩ := List.mem_flatMap.mp hc
  rcases List.mem_cons.mp hc with rfl | hc
  · decide
  · exact not_isBlank_of_mem_rationalText hc

/-- The commas cut the weights apart. -/
theorem fields_valuesText (h : p.values ≠ []) :
    fields ',' p.valuesText = p.values.map rationalText := by
  refine fields_intercalate (mt List.map_eq_nil_iff.mp h) ?_
  intro part hpart hcomma
  obtain ⟨w, -, rfl⟩ := List.mem_map.mp hpart
  rcases isDigit_of_mem_rationalText hcomma with hd | hd | hd
  · cases hd
  · cases hd
  · cases hd

theorem map_trim_rationalText (ws : List Rat) :
    (ws.map rationalText).map trim = ws.map rationalText := by
  rw [List.map_map]
  exact List.map_congr_left fun w _ => trim_eq_self fun c hc => not_isBlank_of_mem_rationalText hc

/-- What is read if the fields are those of the weights, after a label or without one. -/
theorem readLineChars_of_fields (hshape : p.shape ≠ []) (hn : p.IsNormalized)
    (front : Option (List Char))
    (h : (fields ',' (trim cs)).map trim = front.toList ++ p.values.map rationalText) :
    readLineChars p.shape cs = .ok p := by
  have hlength : (p.values.map rationalText).length = p.shape.size := by
    rw [List.length_map]
    exact StrategyTable.length_toList _
  have hfields : weightFields p.shape.size (front.toList ++ p.values.map rationalText)
      = p.values.map rationalText := by
    unfold weightFields
    cases front with
    | none => rw [Option.toList_none, List.nil_append, hlength, if_neg (by omega)]
    | some first =>
      -- one field more than there are weights
      rw [Option.toList_some, List.singleton_append, List.length_cons, hlength, if_pos rfl]
      rfl
  unfold readLineChars
  dsimp only
  rw [h, hfields, if_pos hlength, readValues_rationalText]
  exact ofValues_values hshape hn

/-- **A line without its label** is read back. -/
theorem readLineChars_valuesText (hshape : p.shape ≠ []) (hn : p.IsNormalized) :
    readLineChars p.shape p.valuesText = .ok p := by
  have hvalues := values_ne_nil hshape hn
  -- nothing of it is blank, so nothing is trimmed off
  have htrim : trim p.valuesText = p.valuesText :=
    trim_eq_self fun c hc => not_isBlank_of_mem_valuesText hvalues (List.mem_cons_of_mem _ hc)
  refine readLineChars_of_fields hshape hn none ?_
  rw [htrim, fields_valuesText hvalues, map_trim_rationalText, Option.toList_none, List.nil_append]

/-- **A line with its label** is read back. -/
theorem readLineChars_lineChars (hshape : p.shape ≠ []) (hn : p.IsNormalized)
    (hlabel : ',' ∉ label) : readLineChars p.shape (p.lineChars label .exact) = .ok p := by
  have hvalues := values_ne_nil hshape hn
  have hend : trimEnd p.valuesText = p.valuesText :=
    trimEnd_eq_self fun c hc => not_isBlank_of_mem_valuesText hvalues (List.mem_cons_of_mem _ hc)
  -- only the label can lose characters
  have htrim : trim (label ++ ',' :: p.valuesText) = trimStart label ++ ',' :: p.valuesText := by
    rw [trim, trimStart_append_cons (by decide), trimEnd_append_cons (by decide), hend]
  have hcut := fields_append ',' (trimStart label) p.valuesText
    fun h => hlabel (mem_of_mem_trimStart h)
  refine readLineChars_of_fields hshape hn (some (trim (trimStart label))) ?_
  rw [lineChars_exact hvalues, htrim, hcut, fields_valuesText hvalues, List.map_cons,
    map_trim_rationalText, Option.toList_some, List.singleton_append]

/-! ## §3. Files -/

/-- A line of a file of profiles. -/
inductive FileLine where
  /-- A line without anything to read. -/
  | blank (text : String)
  /-- A profile with a label. -/
  | entry (label : String) (profile : Profile)

namespace FileLine

/-- The line as it is written. -/
def text : FileLine → String
  | blank text => text
  | entry label p => p.line label .exact

/-- The line has no line feed, and it is blank, or has a profile of a shape and a label
without commas. -/
def IsOf (shape : Shape) : FileLine → Prop
  | blank text => isBlankText text.toList = true ∧ '\n' ∉ text.toList
  | entry label p => ',' ∉ label.toList ∧ '\n' ∉ label.toList ∧ p.shape = shape ∧ p.IsNormalized

/-- The profiles on lines, with the lines' numbers, of which the first is given. -/
def numbered : Nat → List FileLine → List (Nat × Profile)
  | _, [] => []
  | k, blank _ :: rest => numbered (k + 1) rest
  | k, entry _ p :: rest => (k, p) :: numbered (k + 1) rest

variable {l : FileLine}

theorem lineFeed_notMem (hshape : shape ≠ []) (h : l.IsOf shape) : '\n' ∉ l.text.toList := by
  cases l with
  | blank text => exact h.2
  | entry label p =>
    obtain ⟨-, hlabel, rfl, hn⟩ := h
    have hvalues := values_ne_nil hshape hn
    show '\n' ∉ (p.line label .exact).toList
    rw [line, String.toList_ofList, lineChars_exact hvalues, List.mem_append]
    rintro (hmem | hmem)
    · exact hlabel hmem
    · have hblank := not_isBlank_of_mem_valuesText hvalues hmem
      exact absurd hblank (by decide)

/-- A blank line is blank, with or without a carriage return at its end. -/
theorem isBlankText_of_blank {text : String} (h : (blank text).IsOf shape)
    (hcs : cs = text.toList ∨ text.toList = cs ++ ['\r']) : isBlankText cs = true := by
  rcases hcs with rfl | hcs
  · exact h.1
  · have hall : isBlankText (cs ++ ['\r']) = true := hcs ▸ h.1
    rw [isBlankText, List.all_append, Bool.and_eq_true] at hall
    exact hall.1

/-- A profile line ends with a weight, and not with a carriage return. -/
theorem eq_lineChars_of_entry {text : String} (hshape : p.shape ≠ []) (hn : p.IsNormalized)
    (hcs : cs = (p.line text .exact).toList ∨ (p.line text .exact).toList = cs ++ ['\r']) :
    cs = p.lineChars text.toList .exact := by
  have hvalues := values_ne_nil hshape hn
  rw [line, String.toList_ofList] at hcs
  -- the last character would be blank, and none after the label is
  refine hcs.resolve_right fun hreturn => ?_
  rw [lineChars_exact hvalues] at hreturn
  have hlast := congrArg List.getLast? hreturn
  rw [List.getLast?_append_of_ne_nil _ (List.cons_ne_nil _ _), List.getLast?_concat] at hlast
  have hblank := not_isBlank_of_mem_valuesText hvalues (List.mem_of_getLast? hlast)
  exact absurd hblank (by decide)

theorem not_isBlankText_lineChars (h : p.values ≠ []) :
    isBlankText (p.lineChars label .exact) = false := by
  have hcomma : isBlank ',' = false := by decide
  rw [lineChars_exact h, isBlankText, List.all_append, List.all_cons, hcomma, Bool.false_and,
    Bool.and_false]

end FileLine

/-- Lines that are read, the first of them with a given number. -/
def readFrom (shape : Shape) (k : Nat) (ls : List (List Char)) :
    List (Nat × Except ProfileError Profile) :=
  ((ls.zipIdx k).filter fun (l, _) => !isBlankText l).map
    fun (l, i) => (i + 1, readLineChars shape l)

theorem readFrom_cons_of_blank (h : isBlankText cs = true) (k : Nat) (ls : List (List Char)) :
    readFrom shape k (cs :: ls) = readFrom shape (k + 1) ls := by
  rw [readFrom, List.zipIdx_cons, List.filter_cons_of_neg (by simp [h])]
  rfl

theorem readFrom_cons (h : isBlankText cs = false) (k : Nat) (ls : List (List Char)) :
    readFrom shape k (cs :: ls) = (k + 1, readLineChars shape cs) :: readFrom shape (k + 1) ls := by
  rw [readFrom, List.zipIdx_cons, List.filter_cons_of_pos (by simp [h])]
  rfl

/-- The last line may be missing if it is empty. -/
theorem readFrom_lines (h : '\n' ∉ cs) (k : Nat) :
    readFrom shape k (lines cs) = readFrom shape k [cs] := by
  cases cs with
  | nil => rfl
  | cons c cs => rw [lines_eq_singleton (List.cons_ne_nil c cs) h]

/-- **A file read from a line number on.** -/
theorem readFrom_lines_intercalate (hshape : shape ≠ []) {file : List FileLine}
    (h : ∀ l ∈ file, l.IsOf shape) (k : Nat) :
    readFrom shape k (lines (['\n'].intercalate (file.map fun l => l.text.toList)))
      = (FileLine.numbered (k + 1) file).map fun (i, p) => (i, .ok p) := by
  induction file generalizing k with
  | nil => rfl
  | cons l file ih =>
    have hl := h l List.mem_cons_self
    have hfeed := FileLine.lineFeed_notMem hshape hl
    have hrest := ih (fun m hm => h m (List.mem_cons_of_mem l hm)) (k + 1)
    -- the first line as it is read, and what is read after it
    obtain ⟨cs, hfirst, hcs⟩ : ∃ cs, readFrom shape k (lines (['\n'].intercalate
          ((l :: file).map fun l => l.text.toList)))
        = readFrom shape k (cs :: lines (['\n'].intercalate (file.map fun l => l.text.toList)))
          ∧ (cs = l.text.toList ∨ l.text.toList = cs ++ ['\r']) := by
      cases file with
      | nil =>
        refine ⟨l.text.toList, ?_, Or.inl rfl⟩
        rw [List.map_singleton, List.intercalate_singleton]
        exact readFrom_lines hfeed k
      | cons m file =>
        obtain ⟨cs, hlines, hcs⟩ := lines_append hfeed
        refine ⟨cs, ?_, hcs⟩
        rw [← hlines, List.map_cons, List.map_cons, List.intercalate_cons_cons, List.append_assoc]
        rfl
    rw [hfirst]
    cases l with
    | blank text =>
      rw [readFrom_cons_of_blank (FileLine.isBlankText_of_blank hl hcs), hrest]
      rfl
    | entry label p =>
      obtain ⟨hcomma, -, rfl, hn⟩ := hl
      obtain rfl := FileLine.eq_lineChars_of_entry hshape hn hcs
      rw [readFrom_cons (FileLine.not_isBlankText_lineChars (values_ne_nil hshape hn)), hrest,
        readLineChars_lineChars hshape hn hcomma]
      rfl

/-- **Written profiles are read back.**  A line with a profile and a label without commas
is read as that profile, with its label and without it.  In a file, such lines may
stand among blank ones; the profiles are read in order, each with the number of its line. -/
theorem readLines_written (hshape : shape ≠ []) :
    (∀ (p : Profile) (label : String), p.shape = shape → p.IsNormalized → ',' ∉ label.toList →
        readLine shape (p.line label .exact) = .ok p
          ∧ ∃ rest, p.line label .exact = label ++ "," ++ rest ∧ readLine shape rest = .ok p)
      ∧ ∀ file : List FileLine, (∀ l ∈ file, l.IsOf shape) →
        readLines shape ("\n".intercalate (file.map FileLine.text))
          = (FileLine.numbered 1 file).map fun (i, p) => (i, .ok p) := by
  constructor
  · rintro p label rfl hn hcomma
    have hvalues := values_ne_nil hshape hn
    refine ⟨?_, String.ofList p.valuesText, ?_, ?_⟩
    · rw [readLine, line, String.toList_ofList]
      exact readLineChars_lineChars hshape hn hcomma
    · rw [line, lineChars_exact hvalues]
      apply String.toList_injective
      simp
    · rw [readLine, String.toList_ofList]
      exact readLineChars_valuesText hshape hn
  · intro file hfile
    have hread := readFrom_lines_intercalate hshape hfile 0
    unfold readLines
    rw [String.toList_intercalate, List.map_map]
    exact hread

/-- One of two strategies twice as often as the other, against a single one. -/
def twiceAsOften : Profile := ⟨[2, 1], ⟨#v[1 / 3, 2 / 3, 1]⟩⟩

/-- The second of two strategies, against a single one. -/
def alwaysSecond : Profile := ⟨[2, 1], ⟨#v[0, 1, 1]⟩⟩

theorem readLines_written_twiceAsOften :
    readLine [2, 1] "start,1/3,2/3,1" = .ok twiceAsOften
      ∧ readLine [2, 1] "1/3,2/3,1" = .ok twiceAsOften
      ∧ readLines [2, 1] "start,1/3,2/3,1\n \r\n,0,1,1"
        = [(1, .ok twiceAsOften), (3, .ok alwaysSecond)] := by
  have hp : twiceAsOften.IsNormalized := by decide +kernel
  have hq : alwaysSecond.IsNormalized := by decide +kernel
  have hline : twiceAsOften.line "start" .exact = "start,1/3,2/3,1" := by decide +kernel
  have hshape : ([2, 1] : Shape) ≠ [] := List.cons_ne_nil _ _
  obtain ⟨hlines, hfiles⟩ := readLines_written hshape
  obtain ⟨hread, rest, hrest, hbare⟩ := hlines twiceAsOften "start" rfl hp (by decide)
  obtain rfl : rest = "1/3,2/3,1" := by
    have hsplit : twiceAsOften.line "start" .exact = "start" ++ "," ++ "1/3,2/3,1" := by
      decide +kernel
    exact (String.append_right_inj _).mp (hrest.symm.trans hsplit)
  refine ⟨hline ▸ hread, hbare, ?_⟩
  have hfile : "\n".intercalate ([.entry "start" twiceAsOften, .blank " \r",
      .entry "" alwaysSecond].map FileLine.text) = "start,1/3,2/3,1\n \r\n,0,1,1" := by
    decide +kernel
  rw [← hfile]
  refine hfiles _ ?_
  intro l hl
  simp only [List.mem_cons, List.not_mem_nil, or_false] at hl
  rcases hl with rfl | rfl | rfl
  · exact ⟨by decide, by decide, rfl, hp⟩
  · exact ⟨by decide, by decide⟩
  · exact ⟨by decide, by decide, rfl, hq⟩

end Profile

end SimplicialNash
