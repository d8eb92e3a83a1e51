/-
  SimplicialNash.Proofs.Json.Written
  ──────────────────────────────────
  **Values that are written are read back.**

  A text is scanned as some tokens if it leaves the scanner between two tokens, with
  these found, whatever has been found before (`Scans`); tokens are read as a value if
  they complete it in whatever container the reader stands (`Reads`).  Both go through
  texts and tokens that are put together, so a text is a written value (`IsWritten`) as
  soon as its parts are.

  A string is written with escapes: each character becomes one piece (`written`), and
  decoding the pieces gives back the characters (`decode?_written`).

  Line breaks and indentation are not scanned as tokens, so a block with items is scanned
  as the tokens of its items (`Scans.block`), and it is a written array or object if the
  items are written values (`IsWritten.array`, `IsWritten.object`).  By induction on
  values, what is written for strings and containers of them is read back
  (`isWritten_pretty`).

  Main statement: `readsBack_standard`.
-/
import Mathlib.Data.List.Forall2
import SimplicialNash.Json.Package

namespace SimplicialNash.Json

/-! ## §1. Strings -/

/-- The piece that a scanner finds in the place of a written character: control
characters without a short escape are written as code units. -/
def writtenPiece (c : Char) : Piece :=
  match escapeChar c with
  | '\\' :: 'u' :: _ => .unit c.toNat
  | _ => .plain c

/-- The pieces that a scanner finds in a string that is written. -/
def written (cs : List Char) : List Piece := cs.map writtenPiece

theorem hexValue?_digitChar : ∀ n < 16, hexValue? n.digitChar = some n := by decide

/-- The next digit of a code unit. -/
theorem step_inUnit {c : Char} {d : Nat} (h : hexValue? c = some d) (pieces : List Piece)
    (missing value : Nat) (found : List Token) :
    Scanner.step ⟨.inUnit pieces missing value, found⟩ c
      = if missing = 1 then ⟨.inString (.unit (16 * value + d) :: pieces), found⟩
        else ⟨.inUnit pieces (missing - 1) (16 * value + d), found⟩ := by
  simp only [Scanner.step, h]

/-- **A written character** is scanned as one piece. -/
theorem foldl_step_escapeChar (c : Char) (pieces : List Piece) (found : List Token) :
    (escapeChar c).foldl Scanner.step ⟨.inString pieces, found⟩
      = ⟨.inString (writtenPiece c :: pieces), found⟩ := by
  unfold writtenPiece escapeChar
  split
  case h_8 hquote hbackslash _ _ _ _ _ =>
    by_cases hcontrol : c.toNat < 0x20
    · -- the number is written with two zeros and two digits
      have hhigh := hexValue?_digitChar (c.toNat / 16) (by omega)
      have hlow := hexValue?_digitChar (c.toNat % 16) (by omega)
      have hvalue : 16 * (c.toNat / 16) + c.toNat % 16 = c.toNat := Nat.div_add_mod _ _
      rw [if_pos hcontrol]
      show [(c.toNat / 16).digitChar, (c.toNat % 16).digitChar].foldl Scanner.step
        ⟨.inUnit pieces 2 0, found⟩ = _
      rw [List.foldl_cons, List.foldl_cons, List.foldl_nil, step_inUnit hhigh,
        if_neg (by decide), step_inUnit hlow, if_pos rfl, Nat.mul_zero, Nat.zero_add, hvalue]
      rfl
    · rw [if_neg hcontrol]
      simp only [List.foldl_cons, List.foldl_nil, Scanner.step]
      rw [if_neg hquote, if_neg hbackslash, if_neg hcontrol]
  all_goals rfl

/-- A code unit outside of the surrogates denotes its character. -/
theorem decode?_unit {n : Nat} (h : n < 0xD800) (rest : List Piece) :
    decode? (.unit n :: rest) = (decode? rest).map (Char.ofNat n :: ·) := by
  have hhigh : isHighSurrogate n = false := by
    simp [isHighSurrogate]
    omega
  have hlow : isLowSurrogate n = false := by
    simp [isLowSurrogate]
    omega
  cases rest with
  | nil => simp [decode?, hhigh, hlow]
  | cons piece rest => cases piece <;> simp [decode?, hhigh, hlow]

/-- **A string that is written** denotes the characters that it was written from. -/
theorem decode?_written (cs : List Char) : decode? (written cs) = some cs := by
  induction cs with
  | nil => rfl
  | cons c cs ih =>
    rw [written, List.map_cons, ← written, writtenPiece]
    split
    · next h =>
      have hcontrol : c.toNat < 0x20 := by
        by_contra hlarge
        unfold escapeChar at h
        rw [if_neg hlarge] at h
        split at h <;> simp at h
      rw [decode?_unit (by omega), ih, Char.ofNat_toNat]
      rfl
    · rw [decode?, ih]
      rfl

/-! ## §2. Tokens -/

section

variable {cs cs' : List Char} {ts ts' : List Token} {c : Char} {t : Token}

/-- A text is scanned as tokens, whatever has been found before. -/
def Scans (cs : List Char) (ts : List Token) : Prop :=
  ∀ found, cs.foldl Scanner.step ⟨.between, found⟩ = ⟨.between, ts.reverse ++ found⟩

namespace Scans

theorem nil : Scans [] [] := fun _ => rfl

/-- **Texts on end** are scanned as their tokens on end. -/
theorem append (h : Scans cs ts) (h' : Scans cs' ts') : Scans (cs ++ cs') (ts ++ ts') := by
  intro found
  rw [List.foldl_append, h, h', List.reverse_append, List.append_assoc]

theorem blank (hc : isBlank c = true) : Scans [c] [] := by
  intro found
  show Scanner.begin found c = _
  rw [Scanner.begin, if_pos hc]
  rfl

theorem mark (hc : mark? c = some t) : Scans [c] [t] := by
  intro found
  unfold mark? at hc
  split at hc <;> cases hc <;> rfl

/-- **A string that is written** is scanned as its pieces. -/
theorem quote (cs : List Char) : Scans (quote cs) [.string (written cs)] := by
  have hpieces : ∀ (cs : List Char) (pieces : List Piece) (found : List Token),
      (cs.flatMap escapeChar).foldl Scanner.step ⟨.inString pieces, found⟩
        = ⟨.inString ((written cs).reverse ++ pieces), found⟩ := by
    intro cs
    induction cs with
    | nil => intro pieces found; rfl
    | cons c cs ih =>
      intro pieces found
      rw [List.flatMap_cons, List.foldl_append, foldl_step_escapeChar, ih, written, written,
        List.map_cons, List.reverse_cons, List.append_assoc, List.singleton_append]
  intro found
  show ((cs.flatMap escapeChar) ++ ['"']).foldl Scanner.step ⟨.inString [], found⟩ = _
  rw [List.foldl_append, hpieces, List.append_nil]
  show Scanner.mk .between (.string (written cs).reverse.reverse :: found) = _
  rw [List.reverse_reverse]
  rfl

/-- **Texts with commas in between** are scanned as their tokens with commas in between. -/
theorem intercalate {items : List (List Char)} {tss : List (List Token)}
    (h : List.Forall₂ Scans items tss) :
    Scans ([','].intercalate items) ([Token.comma].intercalate tss) := by
  induction h with
  | nil => exact nil
  | cons hd hrest ih =>
    cases hrest with
    | nil =>
      rw [List.intercalate_singleton, List.intercalate_singleton]
      exact hd
    | cons _ _ =>
      rw [List.intercalate_cons_cons, List.intercalate_cons_cons]
      exact (hd.append (mark rfl)).append ih

theorem tokens?_eq (h : Scans cs ts) : tokens? cs = some ts := by
  rw [tokens?, Scanner.start, h, List.append_nil]
  exact congrArg some ts.reverse_reverse

end Scans

end

/-! ## §3. Values -/

section

variable {ts rest : List Token} {t : Token} {v : Value} {stack : List Value.Frame}

open Value

/-- Tokens are read as a value, in whatever container and whatever follows. -/
def Reads (ts : List Token) (v : Value) : Prop :=
  ∀ stack rest, Reader.run? ⟨.value, stack⟩ (ts ++ rest) = Reader.run? (Reader.complete v stack) rest

theorem run?_cons {r next : Reader} (h : r.step? t = some next) :
    Reader.run? r (t :: rest) = Reader.run? next rest := by
  rw [Reader.run?, h]
  rfl

/-- At the beginning of an array a value is read as elsewhere. -/
theorem run?_valueOrEnd (ht : t ≠ .closeBracket) :
    Reader.run? ⟨.valueOrEnd, stack⟩ (t :: rest) = Reader.run? ⟨.value, stack⟩ (t :: rest) := by
  have hstep : Reader.step? ⟨.valueOrEnd, stack⟩ t = Reader.step? ⟨.value, stack⟩ t := by
    rcases stack with _ | ⟨_ | _, stack⟩
    · rfl
    · cases t <;> first | rfl | exact absurd rfl ht
    · rfl
  rw [Reader.run?, Reader.run?, hstep]

/-- The tokens of a field. -/
def fieldTokens (key : List Piece) (ts : List Token) : List Token := .string key :: .colon :: ts

theorem intercalate_cons {α : Type} (separator xs : List α) (xss : List (List α)) :
    ∃ more, separator.intercalate (xs :: xss) = xs ++ more := by
  cases xss with
  | nil => exact ⟨[], by rw [List.intercalate_singleton, List.append_nil]⟩
  | cons ys yss => exact ⟨_, by rw [List.intercalate_cons_cons, List.append_assoc]⟩

namespace Reads

theorem string (pieces : List Piece) : Reads [.string pieces] (.string (decode? pieces)) :=
  fun _ _ => rfl

/-- A value has a first token, which does not close an array. -/
theorem exists_cons (h : Reads ts v) : ∃ t more, ts = t :: more ∧ t ≠ .closeBracket := by
  have hrun := h [] []
  rw [List.append_nil] at hrun
  cases ts with
  | nil => cases hrun
  | cons t more =>
    refine ⟨t, more, rfl, ?_⟩
    rintro rfl
    cases hrun

/-- **Items up to the end of an array**, of which there is at least one. -/
theorem run?_items {tss : List (List Token)} {vs : List Value} (h : List.Forall₂ Reads tss vs)
    (hne : tss ≠ []) (items : List Value) (stack : List Frame) (rest : List Token) :
    Reader.run? ⟨.value, .array items :: stack⟩
        ([Token.comma].intercalate tss ++ .closeBracket :: rest)
      = Reader.run? (Reader.complete (.array (items.reverse ++ vs)) stack) rest := by
  induction h generalizing items with
  | nil => exact absurd rfl hne
  | @cons ts v tss vs hd hrest ih =>
    have hitems : (v :: items).reverse = items.reverse ++ [v] := List.reverse_cons
    cases hrest with
    | nil =>
      rw [List.intercalate_singleton, hd, ← hitems]
      rfl
    | cons _ _ =>
      rw [List.intercalate_cons_cons, List.append_assoc, List.append_assoc, hd]
      have hnext := ih (List.cons_ne_nil _ _) (v :: items)
      rw [hitems, List.append_assoc] at hnext
      exact hnext

theorem array {tss : List (List Token)} {vs : List Value} (h : List.Forall₂ Reads tss vs) :
    Reads (.openBracket :: [Token.comma].intercalate tss ++ [.closeBracket]) (.array vs) := by
  intro stack rest
  rw [List.append_assoc, List.singleton_append, List.cons_append, run?_cons rfl]
  cases h with
  | nil => rfl
  | @cons ts v tss vs hd hrest =>
    have hitems := run?_items (.cons hd hrest) (List.cons_ne_nil ts tss) [] stack rest
    obtain ⟨t, more, rfl, ht⟩ := hd.exists_cons
    obtain ⟨others, hothers⟩ := intercalate_cons [Token.comma] (t :: more) tss
    rw [hothers, List.cons_append, List.cons_append] at hitems ⊢
    exact (run?_valueOrEnd ht).trans hitems

/-- **Fields up to the end of an object**, of which there is at least one. -/
theorem run?_fields {keys : List (List Piece)} {tss : List (List Token)} {vs : List Value}
    (h : List.Forall₂ Reads tss vs) (hlength : keys.length = tss.length) (hne : tss ≠ [])
    (ks : List (Option (List Char))) (ws : List Value) (stack : List Frame) (rest : List Token) :
    Reader.run? ⟨.key, .object ks ws :: stack⟩
        ([Token.comma].intercalate (List.zipWith fieldTokens keys tss) ++ .closeBrace :: rest)
      = Reader.run? (Reader.complete
          (.object (ks.reverse ++ keys.map decode?) (ws.reverse ++ vs)) stack) rest := by
  induction h generalizing keys ks ws with
  | nil => exact absurd rfl hne
  | @cons ts v tss vs hd hrest ih =>
    obtain ⟨key, keys, rfl⟩ := List.exists_cons_of_length_eq_add_one hlength
    have hkeys : (decode? key :: ks).reverse = ks.reverse ++ [decode? key] := List.reverse_cons
    have hvalues : (v :: ws).reverse = ws.reverse ++ [v] := List.reverse_cons
    -- the key and the colon are read first
    have hfield : ∀ following, Reader.run? ⟨.key, .object ks ws :: stack⟩
        (fieldTokens key ts ++ following)
        = Reader.run? ⟨.commaOrEnd, .object (decode? key :: ks) (v :: ws) :: stack⟩ following :=
      fun following => hd (.object (decode? key :: ks) ws :: stack) following
    rw [List.zipWith_cons_cons]
    cases hrest with
    | nil =>
      obtain rfl := List.length_eq_zero_iff.mp (Nat.succ.inj hlength)
      rw [List.zipWith_nil_left, List.intercalate_singleton, hfield, List.map_singleton, ← hkeys,
        ← hvalues]
      rfl
    | @cons ts' v' tss' vs' _ _ =>
      obtain ⟨key', keys', rfl⟩ := List.exists_cons_of_length_eq_add_one (Nat.succ.inj hlength)
      have hnext := ih (Nat.succ.inj hlength) (List.cons_ne_nil _ _) (decode? key :: ks) (v :: ws)
      rw [hkeys, hvalues, List.append_assoc, List.append_assoc] at hnext
      rw [List.zipWith_cons_cons, List.intercalate_cons_cons, List.append_assoc,
        List.append_assoc, hfield]
      exact hnext

theorem object {keys : List (List Piece)} {tss : List (List Token)} {vs : List Value}
    (h : List.Forall₂ Reads tss vs) (hlength : keys.length = tss.length) :
    Reads (.openBrace :: [Token.comma].intercalate (List.zipWith fieldTokens keys tss)
      ++ [.closeBrace]) (.object (keys.map decode?) vs) := by
  intro stack rest
  rw [List.append_assoc, List.singleton_append, List.cons_append, run?_cons rfl]
  cases h with
  | nil =>
    obtain rfl := List.length_eq_zero_iff.mp hlength
    rfl
  | @cons ts v tss vs hd hrest =>
    have hfields := run?_fields (.cons hd hrest) hlength (List.cons_ne_nil ts tss) [] [] stack rest
    obtain ⟨key, keys, rfl⟩ := List.exists_cons_of_length_eq_add_one hlength
    rw [List.zipWith_cons_cons] at hfields ⊢
    obtain ⟨others, hothers⟩ := intercalate_cons [Token.comma] (fieldTokens key ts)
      (List.zipWith fieldTokens keys tss)
    -- the first key is read as the others are
    rw [hothers] at hfields ⊢
    exact hfields

end Reads

/-! ## §4. Written values -/

/-- A text whose tokens are read as a value. -/
def IsWritten (cs : List Char) (v : Value) : Prop := ∃ ts, Scans cs ts ∧ Reads ts v

/-- **What is written is read back.** -/
theorem IsWritten.read?_eq {cs : List Char} (h : IsWritten cs v) : read? cs = some v := by
  obtain ⟨ts, hscans, hreads⟩ := h
  have hrun := hreads [] []
  rw [List.append_nil] at hrun
  show ((tokens? cs).bind fun ts => (Reader.run? .start ts).bind _) = _
  rw [hscans.tokens?_eq, Option.bind_some, Reader.start, hrun]
  rfl

theorem isWritten_quote (cs : List Char) : IsWritten (quote cs) (.string (some cs)) := by
  have hreads := Reads.string (written cs)
  rw [decode?_written] at hreads
  exact ⟨_, Scans.quote cs, hreads⟩

/-- Written values consist of tokens, text by text. -/
theorem exists_of_forall₂_isWritten {items : List (List Char)} {vs : List Value}
    (h : List.Forall₂ IsWritten items vs) :
    ∃ tss, List.Forall₂ Scans items tss ∧ List.Forall₂ Reads tss vs := by
  induction h with
  | nil => exact ⟨[], .nil, .nil⟩
  | cons hd _ ih =>
    obtain ⟨ts, hscans, hreads⟩ := hd
    obtain ⟨tss, hall, hall'⟩ := ih
    exact ⟨ts :: tss, .cons hscans hall, .cons hreads hall'⟩

end

/-! ## §5. Blocks and fields -/

section

open Value

variable {items : List (List Char)} {tss : List (List Token)} {vs : List Value}

/-- Blank characters are between tokens. -/
theorem Scans.blanks {cs : List Char} (h : ∀ c ∈ cs, isBlank c = true) : Scans cs [] := by
  induction cs with
  | nil => exact nil
  | cons c cs ih =>
    exact (blank (h c List.mem_cons_self)).append (ih fun d hd => h d (List.mem_cons_of_mem c hd))

/-- A line break and what indents the next line. -/
theorem Scans.newline (indent : Nat) : Scans ('\n' :: List.replicate indent ' ') [] := by
  refine blanks fun c hc => ?_
  rcases List.mem_cons.mp hc with rfl | hc
  · rfl
  · rw [List.eq_of_mem_replicate hc]
    rfl

/-- **A block** is scanned as the tokens of its items, with commas in between. -/
theorem Scans.block {opening closing : Char} {o c : Token} (ho : mark? opening = some o)
    (hc : mark? closing = some c) (h : List.Forall₂ Scans items tss) (indent : Nat) :
    Scans (block indent opening closing items) (o :: [Token.comma].intercalate tss ++ [c]) := by
  unfold Value.block commaSeparated
  split
  · next hnil =>
    subst hnil
    cases h
    exact (mark ho).append (mark hc)
  · have hlines : List.Forall₂ Scans
        (items.map fun item => '\n' :: List.replicate (indent + 2) ' ' ++ item) tss := by
      refine List.forall₂_map_left_iff.mpr (h.imp fun item ts hitem => ?_)
      exact (newline (indent + 2)).append hitem
    have hbody := ((mark ho).append (intercalate hlines)).append (newline indent)
    rw [List.append_nil] at hbody
    exact hbody.append (mark hc)

theorem IsWritten.array (h : List.Forall₂ IsWritten items vs) (indent : Nat) :
    IsWritten (block indent '[' ']' items) (.array vs) := by
  obtain ⟨tss, hscans, hreads⟩ := exists_of_forall₂_isWritten h
  exact ⟨_, Scans.block rfl rfl hscans indent, .array hreads⟩

/-- An object whose fields have the given keys and texts. -/
theorem IsWritten.object (keys : List (List Char)) (h : List.Forall₂ IsWritten items vs)
    (hlength : keys.length = items.length) (indent : Nat) :
    IsWritten (block indent '\x7b' '\x7d' (List.zipWith fieldText (keys.map some) items))
      (.object (keys.map some) vs) := by
  obtain ⟨tss, hscans, hreads⟩ := exists_of_forall₂_isWritten h
  have hfields : List.Forall₂ Scans (List.zipWith fieldText (keys.map some) items)
      (List.zipWith fieldTokens (keys.map written) tss) := by
    clear h hreads
    induction hscans generalizing keys with
    | nil =>
      rw [List.zipWith_nil_right, List.zipWith_nil_right]
      exact .nil
    | @cons item ts items tss hd _ ih =>
      obtain ⟨key, keys, rfl⟩ := List.exists_cons_of_length_eq_add_one hlength
      refine .cons ?_ (ih keys (Nat.succ.inj hlength))
      exact (Scans.quote _).append ((Scans.mark (c := ':') rfl).append
        ((Scans.blank (c := ' ') rfl).append hd))
  have hkeys : (keys.map written).map decode? = keys.map some := by
    rw [List.map_map]
    exact List.map_congr_left fun key _ => decode?_written key
  have hobject := Reads.object hreads
    (show (keys.map written).length = tss.length by
      rw [List.length_map, hlength, hscans.length_eq])
  rw [hkeys] at hobject
  exact ⟨_, Scans.block rfl rfl hfields indent, hobject⟩

end

/-! ## §6. Values of strings -/

namespace Value

theorem length_prettyAll (vs : List Value) (indent : Nat) :
    (prettyAll indent vs).length = vs.length := by
  induction vs with
  | nil => rfl
  | cons v vs ih => rw [prettyAll, List.length_cons, ih, List.length_cons]

mutual

/-- **Strings and containers of them** are written values. -/
theorem isWritten_pretty : (v : Value) → v.isStrings = true → ∀ indent,
    IsWritten (v.pretty indent) v
  | .string text?, h, indent => by
    obtain ⟨cs, rfl⟩ := Option.isSome_iff_exists.mp h
    exact isWritten_quote cs
  | .array items, h, indent => by
    exact IsWritten.array (forall₂_isWritten_prettyAll items h (indent + 2)) indent
  | .object keys values, h, indent => by
    rw [isStrings, areFieldNames] at h
    simp only [Bool.and_eq_true, List.all_eq_true, beq_iff_eq] at h
    obtain ⟨⟨⟨⟨hkeys, -⟩, -⟩, hlength⟩, hvalues⟩ := h
    obtain ⟨names, rfl⟩ : ∃ names : List (List Char), keys = names.map some := by
      refine ⟨keys.map fun key => key.getD [], ?_⟩
      rw [List.map_map]
      refine (List.map_id keys).symm.trans (List.map_congr_left fun key hkey => ?_)
      obtain ⟨name, rfl⟩ := Option.isSome_iff_exists.mp (hkeys key hkey)
      rfl
    rw [List.length_map] at hlength
    refine IsWritten.object names (forall₂_isWritten_prettyAll values hvalues (indent + 2)) ?_
      indent
    rw [hlength, length_prettyAll]
  | .null, h, _ => by cases h
  | .bool _, h, _ => by cases h
  | .number _, h, _ => by cases h

theorem forall₂_isWritten_prettyAll : (vs : List Value) → allStrings vs = true → ∀ indent,
    List.Forall₂ IsWritten (prettyAll indent vs) vs
  | [], _, _ => .nil
  | v :: vs, h, indent => by
    rw [allStrings, Bool.and_eq_true] at h
    exact .cons (isWritten_pretty v h.1 indent) (forall₂_isWritten_prettyAll vs h.2 indent)

end

mutual

theorem isDecodable_of_isStrings : (v : Value) → v.isStrings = true → v.isDecodable = true
  | .string text?, h => h
  | .array items, h => allDecodable_of_allStrings items h
  | .object keys values, h => by
    rw [isStrings, areFieldNames] at h
    simp only [Bool.and_eq_true] at h
    rw [isDecodable, Bool.and_eq_true]
    exact ⟨h.1.1.1.1, allDecodable_of_allStrings values h.2⟩
  | .null, h => by cases h
  | .bool _, h => by cases h
  | .number _, h => by cases h

theorem allDecodable_of_allStrings : (vs : List Value) → allStrings vs = true →
    allDecodable vs = true
  | [], _ => rfl
  | v :: vs, h => by
    rw [allStrings, Bool.and_eq_true] at h
    rw [allDecodable, Bool.and_eq_true]
    exact ⟨isDecodable_of_isStrings v h.1, allDecodable_of_allStrings vs h.2⟩

end

end Value

/-- **The package of the program** reads back what it writes. -/
theorem readsBack_standard : standard.ReadsBack := by
  intro v hv _
  refine ⟨v.pretty 0, ?_, (v.isWritten_pretty hv 0).read?_eq⟩
  show (if v.isDecodable then some (v.pretty 0) else none) = _
  rw [if_pos (v.isDecodable_of_isStrings hv)]

end SimplicialNash.Json
