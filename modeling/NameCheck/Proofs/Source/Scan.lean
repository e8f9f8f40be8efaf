import Mathlib.Data.List.DropRight
import Mathlib.Data.List.Infix
import NameCheck.Proofs.Source.Lines

/-!
# Positions are counted

The position of a byte offset is what a plain scan of the bytes before it counts.  The table of line
starts is in order, so that a search of it leads to the line of an offset, whether a line starts
there or not, and never leaves the table.
-/

namespace NameCheck

namespace Text

/-- The bytes of a text. -/
def encode (text : List Char) : List UInt8 :=
  bytes (String.ofList text)

/-- The byte of a line feed. -/
def lineFeed : UInt8 := 10

variable {before rest : List Char} {offset : Nat}

theorem encode_eq_flatMap (text : List Char) :
    encode text = text.flatMap String.utf8EncodeChar := by
  rw [encode, bytes, String.toByteArray_ofList, List.utf8Encode, List.toList_data_toByteArray]

theorem encode_cons (c : Char) (cs : List Char) :
    encode (c :: cs) = String.utf8EncodeChar c ++ encode cs := by
  rw [encode_eq_flatMap, encode_eq_flatMap, List.flatMap_cons]

theorem encode_append (cs ds : List Char) : encode (cs ++ ds) = encode cs ++ encode ds := by
  simp only [encode_eq_flatMap, List.flatMap_append]

theorem length_encode (text : List Char) : (encode text).length = utf8Length text := by
  induction text with
  | nil => rfl
  | cons c cs ih =>
      rw [encode_cons, List.length_append, String.length_utf8EncodeChar, ih, utf8Length_cons]

/-- The bytes of a character beyond the first 128 have their highest bit set. -/
theorem le_of_mem_utf8EncodeChar {c : Char} (hc : 127 < c.val.toNat) {b : UInt8}
    (hb : b ∈ String.utf8EncodeChar c) : 128 ≤ b.toNat := by
  simp only [String.utf8EncodeChar, if_neg (Nat.not_le.mpr hc)] at hb
  split at hb
  · simp only [List.mem_cons, List.not_mem_nil, or_false] at hb
    rcases hb with rfl | rfl <;> simp only [UInt8.toNat_ofNat'] <;> omega
  split at hb
  · simp only [List.mem_cons, List.not_mem_nil, or_false] at hb
    rcases hb with rfl | rfl | rfl <;> simp only [UInt8.toNat_ofNat'] <;> omega
  · simp only [List.mem_cons, List.not_mem_nil, or_false] at hb
    rcases hb with rfl | rfl | rfl | rfl <;> simp only [UInt8.toNat_ofNat'] <;> omega

/-- No other character has the byte of a line feed. -/
theorem lineFeed_mem_utf8EncodeChar {c : Char} :
    lineFeed ∈ String.utf8EncodeChar c ↔ c = '\n' := by
  constructor
  · intro h
    rcases Nat.lt_or_ge 127 c.val.toNat with hc | hc
    · exact absurd (le_of_mem_utf8EncodeChar hc h) (by decide)
    · simp only [String.utf8EncodeChar, if_pos hc, List.mem_singleton] at h
      have hbyte : (10 : Nat) = c.val.toNat % 256 := congrArg UInt8.toNat h
      have hval : c.val.toNat = ('\n' : Char).val.toNat := by
        rw [Nat.mod_eq_of_lt (by omega)] at hbyte
        exact hbyte.symm
      exact Char.ext (UInt32.toNat_inj.mp hval)
  · rintro rfl
    decide

theorem lineFeed_mem_encode {text : List Char} : lineFeed ∈ encode text ↔ '\n' ∈ text := by
  rw [encode_eq_flatMap, List.mem_flatMap]
  simp only [lineFeed_mem_utf8EncodeChar, exists_eq_right]

theorem count_encode (text : List Char) : (encode text).count lineFeed = text.count '\n' := by
  induction text with
  | nil => rfl
  | cons c cs ih =>
      rw [encode_cons, List.count_append, ih, List.count_cons]
      by_cases hc : c = '\n'
      · subst hc
        exact Nat.add_comm _ _
      · rw [List.count_eq_zero.mpr (mt lineFeed_mem_utf8EncodeChar.mp hc), Nat.zero_add,
          if_neg (mt beq_iff_eq.mp hc), Nat.add_zero]

theorem take_encode (before rest : List Char) :
    (encode (before ++ rest)).take (utf8Length before) = encode before := by
  rw [encode_append, ← length_encode, List.take_left']
  rfl

theorem encode_injective : Function.Injective encode := fun _ _ h =>
  String.ofList_injective (bytes_inj.mp h)

/-! ## Offsets of a text -/

/-- An offset stands for the end of its text, or for a place between characters, or is inside of a
character. -/
theorem exists_place (text : List Char) (offset : Nat) :
    (∃ before rest, text = before ++ rest ∧ min offset (utf8Length text) = utf8Length before) ∨
      ∃ before c rest, text = before ++ c :: rest ∧ utf8Length before < offset ∧
        offset < utf8Length before + c.utf8Size := by
  induction text generalizing offset with
  | nil => exact Or.inl ⟨[], [], rfl, Nat.min_zero _⟩
  | cons c cs ih =>
      rcases Nat.eq_zero_or_pos offset with rfl | hpos
      · exact Or.inl ⟨[], c :: cs, rfl, Nat.zero_min _⟩
      rcases Nat.lt_or_ge offset c.utf8Size with hlt | hge
      · refine Or.inr ⟨[], c, cs, rfl, hpos, ?_⟩
        rwa [utf8Length_nil, Nat.zero_add]
      rcases ih (offset - c.utf8Size) with ⟨before, rest, rfl, h⟩ | ⟨before, d, rest, rfl, h, h'⟩
      · refine Or.inl ⟨c :: before, rest, rfl, ?_⟩
        rw [utf8Length_cons, utf8Length_cons, ← h]
        omega
      · refine Or.inr ⟨c :: before, d, rest, rfl, ?_, ?_⟩ <;> rw [utf8Length_cons] <;> omega

/-- No characters fill the bytes up to the inside of a character. -/
theorem takeBytes?_inside {c : Char} {n : Nat} (before rest : List Char) (hpos : 0 < n)
    (hlt : n < c.utf8Size) : takeBytes? (utf8Length before + n) (before ++ c :: rest) = none := by
  induction before with
  | nil =>
      obtain ⟨m, rfl⟩ := Nat.exists_eq_add_one.mpr hpos
      rw [utf8Length_nil, Nat.zero_add, List.nil_append, takeBytes?, if_neg (Nat.not_le.mpr hlt)]
  | cons d ds ih =>
      obtain ⟨m, hm⟩ := Nat.exists_eq_add_one.mpr (Nat.add_pos_right (utf8Length (d :: ds)) hpos)
      rw [utf8Length_cons] at hm
      have hrest : m + 1 - d.utf8Size = utf8Length ds + n := by omega
      rw [utf8Length_cons, hm, List.cons_append, takeBytes?, if_pos (by omega), hrest, ih]
      rfl

/-! ## Scanning -/

/-- The position of a byte offset by a scan of the bytes before it: its line by their line feeds,
its column by the characters after the last of them, or, where the bytes end inside of a character,
by the bytes after it. -/
def scanPosition (text : List Char) (offset : Nat) : Position :=
  let passed := (encode text).take offset
  let column :=
    match text.inits.find? (encode · = passed) with
    | some before => (before.rtakeWhile (· ≠ '\n')).length
    | none => (passed.rtakeWhile (· ≠ lineFeed)).length
  ⟨passed.count lineFeed + 1, column + 1⟩

/-- The beginning of a text that has the bytes of `before` is `before`. -/
theorem find?_inits (before rest : List Char) :
    (before ++ rest).inits.find? (encode · = encode before) = some before := by
  have hmem : before ∈ (before ++ rest).inits := (List.mem_inits _ _).mpr (List.prefix_append _ _)
  have hsome : ((before ++ rest).inits.find? (encode · = encode before)).isSome :=
    List.find?_isSome.mpr ⟨before, hmem, decide_eq_true rfl⟩
  obtain ⟨found, hfound⟩ := Option.isSome_iff_exists.mp hsome
  have hbytes := List.find?_some hfound
  rw [hfound, encode_injective (of_decide_eq_true hbytes)]

/-- No beginning of a text ends inside of a character. -/
theorem find?_inits_inside {c : Char} (before rest : List Char) (hlt : utf8Length before < offset)
    (hlt' : offset < utf8Length before + c.utf8Size) :
    (before ++ c :: rest).inits.find? (encode · = (encode (before ++ c :: rest)).take offset) =
      none := by
  refine List.find?_eq_none.mpr fun found hfound hbytes => ?_
  have hsize : offset ≤ utf8Length (before ++ c :: rest) := by
    rw [utf8Length_append, utf8Length_cons]
    omega
  have hlength : utf8Length found = offset := by
    rw [← length_encode, of_decide_eq_true hbytes, List.length_take, length_encode,
      Nat.min_eq_left hsize]
  have hprefix := (List.mem_inits _ _).mp hfound
  obtain ⟨es, hes, rfl⟩ := exists_append_of_utf8Length_lt (List.prefix_append _ _) hprefix
    (hlength ▸ hlt)
  obtain ⟨e, es, rfl⟩ := List.exists_cons_of_ne_nil hes
  obtain ⟨rfl, -⟩ := List.cons_prefix_cons.mp ((List.prefix_append_right_inj before).mp hprefix)
  rw [utf8Length_append, utf8Length_cons] at hlength
  omega

theorem rtakeWhile_append {α : Type} {p : α → Bool} {as bs : List α}
    (has : as = [] ∨ ∃ cs c, as = cs ++ [c] ∧ p c = false) (hbs : ∀ b ∈ bs, p b = true) :
    (as ++ bs).rtakeWhile p = bs := by
  rw [List.rtakeWhile, List.reverse_append,
    List.takeWhile_append_of_pos fun b hb => hbs b (List.mem_reverse.mp hb)]
  have hnil : as.reverse.takeWhile p = [] := by
    rcases has with rfl | ⟨cs, c, rfl, hc⟩
    · rfl
    · simp [hc]
  rw [hnil, List.append_nil, List.reverse_reverse]

/-- The characters of the last line of a text. -/
theorem rtakeWhile_line {lines line : List Char} (hlines : WholeLines lines) (hline : '\n' ∉ line) :
    (lines ++ line).rtakeWhile (· ≠ '\n') = line := by
  refine rtakeWhile_append ?_ fun c hc => decide_eq_true fun heq => hline (heq ▸ hc)
  rcases hlines with rfl | ⟨cs, rfl⟩
  · exact Or.inl rfl
  · exact Or.inr ⟨cs, '\n', rfl, rfl⟩

/-- The bytes of the last line of a text, and more that have no line feed. -/
theorem rtakeWhile_bytes {lines : List Char} {bs : List UInt8} (hlines : WholeLines lines)
    (hbs : lineFeed ∉ bs) : (encode lines ++ bs).rtakeWhile (· ≠ lineFeed) = bs := by
  refine rtakeWhile_append ?_ fun b hb => decide_eq_true fun heq => hbs (heq ▸ hb)
  rcases hlines with rfl | ⟨cs, rfl⟩
  · exact Or.inl rfl
  · exact Or.inr ⟨encode cs, lineFeed, encode_append _ _, rfl⟩

/-- The bytes up to the inside of a character are those before it and some of its own. -/
theorem take_encode_inside {c : Char} (before rest : List Char) (hlt : utf8Length before < offset)
    (hlt' : offset < utf8Length before + c.utf8Size) :
    (encode (before ++ c :: rest)).take offset =
      encode before ++ (String.utf8EncodeChar c).take (offset - utf8Length before) := by
  rw [encode_append, encode_cons, List.take_append, length_encode,
    List.take_of_length_le (by rw [length_encode]; omega),
    List.take_append_of_le_length (by rw [String.length_utf8EncodeChar]; omega)]

/-- A line feed has no inside. -/
theorem ne_lineFeed_of_inside {c : Char} {n : Nat} (hlt : n < offset)
    (hlt' : offset < n + c.utf8Size) : c ≠ '\n' := by
  rintro rfl
  have hsize : ('\n' : Char).utf8Size = 1 := rfl
  omega

section Scan

variable {lines line : List Char} {c : Char}

/-- An offset past the end counts as the end. -/
theorem scanPosition_min (text : List Char) (offset : Nat) :
    scanPosition text (min offset (utf8Length text)) = scanPosition text offset := by
  rw [scanPosition, scanPosition, ← length_encode, ← List.take_eq_take_min]

theorem scanPosition_between (hlines : WholeLines lines) (hline : '\n' ∉ line) (rest : List Char) :
    scanPosition (lines ++ line ++ rest) (utf8Length (lines ++ line)) =
      ⟨lines.count '\n' + 1, line.length + 1⟩ := by
  simp only [scanPosition, take_encode, find?_inits, count_encode, rtakeWhile_line hlines hline,
    List.count_append, List.count_eq_zero.mpr hline, Nat.add_zero]

theorem scanPosition_inside (hlines : WholeLines lines) (hline : '\n' ∉ line) (rest : List Char)
    (hlt : utf8Length (lines ++ line) < offset)
    (hlt' : offset < utf8Length (lines ++ line) + c.utf8Size) :
    scanPosition (lines ++ line ++ c :: rest) offset =
      ⟨lines.count '\n' + 1, offset - utf8Length lines + 1⟩ := by
  have hfind := find?_inits_inside (lines ++ line) rest hlt hlt'
  have hpassed : (encode (lines ++ line ++ c :: rest)).take offset =
      encode lines ++ (encode line ++
        (String.utf8EncodeChar c).take (offset - utf8Length (lines ++ line))) := by
    rw [take_encode_inside _ rest hlt hlt', encode_append, List.append_assoc]
  have hc : lineFeed ∉ (String.utf8EncodeChar c).take (offset - utf8Length (lines ++ line)) :=
    fun h => ne_lineFeed_of_inside hlt hlt' <|
      lineFeed_mem_utf8EncodeChar.mp (List.mem_of_mem_take h)
  have hbytes : lineFeed ∉
      encode line ++ (String.utf8EncodeChar c).take (offset - utf8Length (lines ++ line)) := by
    rw [List.mem_append, lineFeed_mem_encode]
    exact fun h => h.elim hline hc
  have hwidth : (encode line ++
      (String.utf8EncodeChar c).take (offset - utf8Length (lines ++ line))).length =
      offset - utf8Length lines := by
    rw [utf8Length_append] at *
    rw [List.length_append, length_encode, List.length_take, String.length_utf8EncodeChar]
    omega
  simp only [scanPosition, hfind]
  rw [hpassed, rtakeWhile_bytes hlines hbytes, hwidth, List.count_append, count_encode,
    List.count_eq_zero.mpr hbytes, Nat.add_zero]

end Scan

end Text

open Text

namespace LineIndex

variable {text lines line rest : List Char} {offset : Nat} {table : List Nat}

/-- An offset past the end counts as the end. -/
theorem position_min (text : List Char) (offset : Nat) :
    (ofText text).position (min offset (utf8Length text)) = (ofText text).position offset := by
  rw [position, position, size, ofText, Nat.min_eq_left (Nat.min_le_right _ _)]

/-- Inside of a character the column is counted in bytes. -/
theorem position_inside {c : Char} (hlines : WholeLines lines) (hline : '\n' ∉ line)
    (rest : List Char) (hlt : utf8Length (lines ++ line) < offset)
    (hlt' : offset < utf8Length (lines ++ line) + c.utf8Size) :
    (ofText (lines ++ line ++ c :: rest)).position offset =
      ⟨lines.count '\n' + 1, offset - utf8Length lines + 1⟩ := by
  have hc := ne_lineFeed_of_inside hlt hlt'
  rw [utf8Length_append] at hlt hlt'
  have hafter : ∀ start ∈ startsAfter (utf8Length lines + utf8Length line) (c :: rest),
      offset < start := by
    intro start hstart
    rw [startsAfter, if_neg hc] at hstart
    exact hlt'.trans (bounds_of_mem_startsAfter hstart).1
  have hsize : offset ≤ utf8Length (lines ++ (line ++ c :: rest)) := by
    simp only [utf8Length_append, utf8Length_cons]
    omega
  have htake : takeBytes? (offset - utf8Length lines) (line ++ c :: rest) = none := by
    have hoffset : offset - utf8Length lines =
        utf8Length line + (offset - utf8Length lines - utf8Length line) := by omega
    rw [hoffset]
    exact takeBytes?_inside line rest (by omega) (by omega)
  rw [List.append_assoc, position_of_lt hlines hline hsize (by omega) hafter, htake]
  rfl

/-- The index answers what a scan counts. -/
theorem position_eq_scanPosition (text : List Char) (offset : Nat) :
    (ofText text).position offset = scanPosition text offset := by
  -- Between two characters both count characters, and inside of one both count bytes.
  rcases exists_place text offset with ⟨before, rest, rfl, h⟩ | ⟨before, c, rest, rfl, hlt, hlt'⟩
  · obtain ⟨lines, line, rfl, hlines, hline⟩ := exists_lines before
    rw [← position_min, ← scanPosition_min, h, position_utf8Length,
      scanPosition_between hlines hline, Position.first_after_line hlines hline]
  · obtain ⟨lines, line, rfl, hlines, hline⟩ := exists_lines before
    rw [position_inside hlines hline rest hlt hlt', scanPosition_inside hlines hline rest hlt hlt']

/-! ## Searching the line starts -/

theorem pairwise_startsAfter (offset : Nat) (text : List Char) :
    (startsAfter offset text).Pairwise (· < ·) := by
  induction text generalizing offset with
  | nil => exact List.Pairwise.nil
  | cons c cs ih =>
      rw [startsAfter]
      split
      · exact List.pairwise_cons.mpr ⟨fun _ hstart => (bounds_of_mem_startsAfter hstart).1, ih _⟩
      · exact ih _

/-- The line starts are in order, the first of them at the beginning. -/
theorem pairwise_starts (text : List Char) : (ofText text).starts.Pairwise (· < ·) :=
  List.pairwise_cons.mpr ⟨fun _ hstart => (bounds_of_mem_startsAfter hstart).1,
    pairwise_startsAfter 0 text⟩

/-- What a search of a table tells: the index at which the value stands, or the one at which it
would have to be put in. -/
inductive Found where
  | here (index : Nat)
  | missing (index : Nat)

/-- What a search of a table for a value may tell. -/
inductive Finds : List Nat → Nat → Found → Prop where
  | here {before after : List Nat} {value : Nat} :
      Finds (before ++ value :: after) value (.here before.length)
  | missing {before after : List Nat} {value : Nat} (hbefore : ∀ entry ∈ before, entry < value)
      (hafter : ∀ entry ∈ after, value < entry) :
      Finds (before ++ after) value (.missing before.length)

/-- A difference, unless it is below zero. -/
def sub? (m n : Nat) : Option Nat :=
  if n ≤ m then some (m - n) else none

/-- The index of the line that a search has found. -/
def Found.line? : Found → Option Nat
  | .here index => some index
  | .missing index => sub? index 1

/-- The position of an offset as it is computed from what a search of the line starts tells.  There
is none where a difference is below zero or the table has no such line. -/
def positionFrom? (index : LineIndex) (found : Found) (offset : Nat) : Option Position := do
  let offset := min offset index.size
  let line ← found.line?
  let start ← index.starts[line]?
  let width ← sub? offset start
  let column :=
    match takeBytes? width (dropBytes start index.text) with
    | some before => before.length
    | none => width
  return ⟨line + 1, column + 1⟩

/-- A table in order can be searched. -/
theorem exists_finds (h : table.Pairwise (· < ·)) (value : Nat) :
    ∃ found, Finds table value found := by
  induction table with
  | nil => exact ⟨_, @Finds.missing [] [] value (by simp) (by simp)⟩
  | cons entry table ih =>
      obtain ⟨hentry, htable⟩ := List.pairwise_cons.mp h
      rcases Nat.lt_trichotomy entry value with hlt | rfl | hgt
      · obtain ⟨found, hfound⟩ := ih htable
        cases hfound with
        | @here before after => exact ⟨_, @Finds.here (entry :: before) after value⟩
        | @missing before after _ hbefore hafter =>
            have hbefore' : ∀ e ∈ entry :: before, e < value :=
              List.forall_mem_cons.mpr ⟨hlt, hbefore⟩
            exact ⟨_, @Finds.missing (entry :: before) after value hbefore' hafter⟩
      · exact ⟨_, @Finds.here [] table entry⟩
      · have hafter := List.forall_mem_cons.mpr ⟨hgt, fun e he => hgt.trans (hentry e he)⟩
        exact ⟨_, @Finds.missing [] (entry :: table) value (by simp) hafter⟩

/-- Entries of which all before a place are not after the value, and all behind it are. -/
theorem filter_le_append {before after : List Nat} {value : Nat}
    (hbefore : ∀ entry ∈ before, entry ≤ value) (hafter : ∀ entry ∈ after, value < entry) :
    (before ++ after).filter (· ≤ value) = before := by
  have hkept := List.filter_eq_self.mpr fun entry h => decide_eq_true (hbefore entry h)
  have hdropped := List.filter_eq_nil_iff.mpr fun entry h hle =>
    Nat.not_le.mpr (hafter entry h) (of_decide_eq_true hle)
  rw [List.filter_append, hkept, hdropped, List.append_nil]

/-- A search in a table that is in order and begins with zero leads to the last entry that is not
after the value. -/
theorem Finds.exists_start {found : Found} {value : Nat} (h : Finds table value found)
    (hsorted : table.Pairwise (· < ·)) (hzero : 0 ∈ table) :
    ∃ before start, found.line? = some before.length ∧ table[before.length]? = some start ∧
      table.filter (· ≤ value) = before ++ [start] ∧ start ≤ value := by
  cases h with
  | @here before after =>
      obtain ⟨-, hafter, hbefore⟩ := List.pairwise_append.mp hsorted
      refine ⟨before, value, rfl, by simp, ?_, Nat.le_refl _⟩
      rw [List.append_cons]
      refine filter_le_append (List.forall_mem_append.mpr ⟨?_, ?_⟩) (List.pairwise_cons.mp hafter).1
      · exact fun entry hentry => (hbefore entry hentry value List.mem_cons_self).le
      · exact List.forall_mem_singleton.mpr (Nat.le_refl _)
  | @missing before after _ hbefore hafter =>
      rcases List.eq_nil_or_concat' before with rfl | ⟨before, start, rfl⟩
      · exact absurd (hafter 0 hzero) (Nat.not_lt_zero _)
      have hstart := hbefore start (List.mem_append_right _ List.mem_cons_self)
      refine ⟨before, start, ?_, by simp, ?_, hstart.le⟩
      · simp [Found.line?, sub?]
      · exact filter_le_append (fun entry hentry => (hbefore entry hentry).le) hafter

/-- Whatever a search of the line starts tells, no difference is below zero and the line is in the
table. -/
theorem positionFrom?_of_finds {found : Found} (text : List Char) (offset : Nat)
    (h : Finds (ofText text).starts (min offset (ofText text).size) found) :
    (ofText text).positionFrom? found offset = some ((ofText text).position offset) := by
  obtain ⟨before, start, hline, hget, hfilter, hle⟩ :=
    h.exists_start (pairwise_starts text) List.mem_cons_self
  have hstart : (ofText text).lineStart (min offset (ofText text).size) = start := by
    rw [lineStart, hfilter, List.getLast?_concat]
    rfl
  have hcount : (ofText text).starts.countP (· ≤ min offset (ofText text).size) =
      before.length + 1 := by
    rw [List.countP_eq_length_filter, hfilter, List.length_append, List.length_singleton]
  simp only [positionFrom?, hline, hget, sub?, if_pos hle, Option.bind_eq_bind, Option.bind_some]
  rw [position, hstart, hcount]
  rfl

/-- The line index agrees with a scan. -/
theorem position_scans (text : List Char) (offset : Nat) :
    let index := ofText text
    index.lineCount = text.count '\n' + 1 ∧ index.position offset = scanPosition text offset ∧
      (∃ found, Finds index.starts (min offset index.size) found) ∧
      ∀ found, Finds index.starts (min offset index.size) found →
        index.positionFrom? found offset = some (index.position offset) :=
  ⟨lineCount_ofText text, position_eq_scanPosition text offset,
    exists_finds (pairwise_starts text) _, fun _ => positionFrom?_of_finds text offset⟩

/-- An offset inside of the second character of the second line. -/
theorem position_scans_inside_character :
    Finds (ofText ['a', '\n', 'x', 'é']).starts 4 (.missing 2) ∧
      (ofText ['a', '\n', 'x', 'é']).position 4 = ⟨2, 3⟩ ∧
      (ofText ['a', '\n', 'x', 'é']).positionFrom? (.missing 2) 4 = some ⟨2, 3⟩ := by
  have hfinds : Finds (ofText ['a', '\n', 'x', 'é']).starts 4 (.missing 2) :=
    @Finds.missing [0, 2] [] 4 (by decide) (by decide)
  obtain ⟨-, hscan, -, hfound⟩ := position_scans ['a', '\n', 'x', 'é'] 4
  have hposition : (ofText ['a', '\n', 'x', 'é']).position 4 = ⟨2, 3⟩ := by
    rw [hscan]
    decide +kernel
  exact ⟨hfinds, hposition, hposition ▸ hfound _ hfinds⟩

end LineIndex

end NameCheck
