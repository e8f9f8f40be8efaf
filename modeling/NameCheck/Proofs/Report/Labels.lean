import NameCheck.Proofs.Source.Boundaries
import NameCheck.Proofs.Source.Scan
import NameCheck.Report.Excerpt

/-!
# Labels

On the way from a position to an excerpt a text is cut twice: where a line starts, to count the
columns from there on, and at the offset of the position, to count the characters before it.  The
line starts are found by a scan of the bytes for line feeds.  Whatever the position is, both cuts
are between characters, and the label of the excerpt covers one character of the text, or none at
its end.
-/

namespace NameCheck

namespace Text

variable {text before rest : List Char} {bs : List UInt8} {offset : Nat}

/-! ## Cutting -/

/-- What is left of a text from an offset on; none when the offset is not between characters. -/
def dropBytes? (offset : Nat) (text : List Char) : Option (List Char) :=
  (takeBytes? offset text).map fun before => text.drop before.length

theorem dropBytes?_append (before rest : List Char) :
    dropBytes? (utf8Length before) (before ++ rest) = some rest := by
  rw [dropBytes?, takeBytes?_append, Option.map_some, List.drop_left]

/-- The characters of a text with the offsets at which they stand, when the first one stands at
`offset`. -/
def charOffsets : Nat → List Char → List (Nat × Char)
  | _, [] => []
  | offset, c :: cs => (offset, c) :: charOffsets (offset + c.utf8Size) cs

theorem getElem?_charOffsets (offset : Nat) (text : List Char) (n : Nat) :
    (charOffsets offset text)[n]? = text[n]?.map (offset + utf8Length (text.take n), ·) := by
  induction text generalizing offset n with
  | nil => rfl
  | cons c cs ih =>
      cases n with
      | zero => rfl
      | succ n =>
          rw [charOffsets, List.getElem?_cons_succ, ih, List.getElem?_cons_succ,
            List.take_succ_cons, utf8Length_cons, Nat.add_assoc]

/-- Only the end of a text has nothing behind it. -/
theorem utf8Length_lt_iff : utf8Length before < utf8Length (before ++ rest) ↔ rest ≠ [] := by
  rw [utf8Length_append]
  cases rest with
  | nil => simp
  | cons c cs =>
      have hpos := c.utf8Size_pos
      simp only [utf8Length_cons, ne_eq, List.cons_ne_nil, not_false_eq_true, iff_true]
      omega

/-! ## Scanning for line feeds -/

/-- The offsets behind the line feeds among some bytes, the first of which stands at `offset`. -/
def feedEnds (offset : Nat) (bs : List UInt8) : List Nat :=
  (bs.zipIdx offset).filterMap fun (b, i) => if b = lineFeed then some (i + 1) else none

theorem feedEnds_append (offset : Nat) (bs more : List UInt8) :
    feedEnds offset (bs ++ more) = feedEnds offset bs ++ feedEnds (offset + bs.length) more := by
  rw [feedEnds, List.zipIdx_append, List.filterMap_append]
  rfl

theorem feedEnds_eq_nil (offset : Nat) (h : lineFeed ∉ bs) : feedEnds offset bs = [] := by
  refine List.filterMap_eq_nil_iff.mpr fun (b, i) hmem => ?_
  have hb : b ≠ lineFeed := by
    rintro rfl
    exact h (List.fst_mem_of_mem_zipIdx hmem)
  exact if_neg hb

end Text

open Text

namespace LineIndex

variable {text : List Char} {offset start : Nat}

/-! ## Where lines start -/

/-- No byte of another character is taken for a line feed. -/
theorem startsAfter_eq_feedEnds (offset : Nat) (text : List Char) :
    startsAfter offset text = feedEnds offset (encode text) := by
  induction text generalizing offset with
  | nil => rfl
  | cons c cs ih =>
      rw [startsAfter, encode_cons, feedEnds_append, String.length_utf8EncodeChar, ← ih]
      by_cases hc : c = '\n'
      · subst hc
        rfl
      · rw [if_neg hc, feedEnds_eq_nil offset (mt lineFeed_mem_utf8EncodeChar.mp hc)]
        rfl

theorem exists_before_of_mem_startsAfter (h : start ∈ startsAfter offset text) :
    ∃ before rest, text = before ++ rest ∧ start = offset + utf8Length before := by
  induction text generalizing offset with
  | nil => cases h
  | cons c cs ih =>
      have hlater (h : start ∈ startsAfter (offset + c.utf8Size) cs) :
          ∃ before rest, c :: cs = before ++ rest ∧ start = offset + utf8Length before := by
        obtain ⟨before, rest, rfl, rfl⟩ := ih h
        exact ⟨c :: before, rest, rfl, Nat.add_assoc _ _ _⟩
      rw [startsAfter] at h
      split at h
      · rcases List.mem_cons.mp h with rfl | h
        · exact ⟨[c], cs, rfl, rfl⟩
        · exact hlater h
      · exact hlater h

/-- A line starts between two characters. -/
theorem exists_before_of_mem_starts (h : start ∈ (ofText text).starts) :
    ∃ before rest, text = before ++ rest ∧ start = utf8Length before := by
  rcases List.mem_cons.mp h with rfl | h
  · exact ⟨[], text, rfl, rfl⟩
  · obtain ⟨before, rest, htext, hstart⟩ := exists_before_of_mem_startsAfter h
    exact ⟨before, rest, htext, hstart.trans (Nat.zero_add _)⟩

/-! ## Offsets of positions -/

/-- The offset of a position as it is found by cutting the text at the start of a line and looking
for the character of a column.  There is none where the text cannot be cut. -/
def offset? (index : LineIndex) (p : Position) : Option Nat :=
  match index.starts[p.line - 1]? with
  | none => some index.size
  | some start =>
    (dropBytes? start index.text).map fun rest =>
      match (charOffsets 0 rest)[p.column - 1]? with
      | some (width, _) => start + width
      | none => index.size

/-- Whatever a position is, it leads to a place between characters. -/
theorem exists_before_of_offset (text : List Char) (p : Position) :
    ∃ before rest, text = before ++ rest ∧ (ofText text).offset p = utf8Length before ∧
      (ofText text).offset? p = some (utf8Length before) := by
  rw [offset, offset?]
  cases hstart : (ofText text).starts[p.line - 1]? with
  | none => exact ⟨text, [], (List.append_nil text).symm, rfl, rfl⟩
  | some start =>
      obtain ⟨lines, below, rfl, rfl⟩ :=
        exists_before_of_mem_starts (List.mem_of_getElem? hstart)
      refine ⟨lines ++ below.take (p.column - 1), below.drop (p.column - 1), ?_, ?_, ?_⟩
      · rw [List.append_assoc, List.take_append_drop]
      · simp only [ofText, dropBytes_append, utf8Length_append]
      · simp only [ofText, dropBytes?_append, Option.map_some, getElem?_charOffsets]
        cases hchar : below[p.column - 1]? with
        | some c => simp only [Option.map_some, Nat.zero_add, utf8Length_append]
        | none =>
            rw [List.take_of_length_le (List.getElem?_eq_none_iff.mp hchar)]
            rfl

theorem offset?_eq (text : List Char) (p : Position) :
    (ofText text).offset? p = some ((ofText text).offset p) := by
  obtain ⟨_, _, -, hoffset, hoffset?⟩ := exists_before_of_offset text p
  rw [hoffset?, hoffset]

end LineIndex

/-! ## What an excerpt marks -/

/-- The characters of a text that are marked, from `start` up to but not including `stop`. -/
structure Label where
  start : Nat
  stop : Nat
deriving DecidableEq, Repr

namespace Label

variable {source before rest : List Char} {p : Position}

/-- The label of a position, which is found by cutting the text at the offset of the position. -/
def at? (source : List Char) (p : Position) : Option Label := do
  let index := LineIndex.ofText source
  let offset ← index.offset? p
  let before ← takeBytes? offset source
  return ⟨before.length, if offset < index.size then before.length + 1 else before.length⟩

/-- A label covers the next character, if there is one. -/
theorem at?_append (h : (LineIndex.ofText (before ++ rest)).offset p = utf8Length before) :
    at? (before ++ rest) p = some ⟨before.length, before.length + (rest.take 1).length⟩ := by
  have hstop : (if utf8Length before < (LineIndex.ofText (before ++ rest)).size
      then before.length + 1 else before.length) = before.length + (rest.take 1).length := by
    rw [LineIndex.size, LineIndex.ofText]
    simp only [utf8Length_lt_iff]
    cases rest <;> rfl
  rw [← hstop, at?, LineIndex.offset?_eq, h]
  simp only [Option.bind_eq_bind, Option.bind_some, takeBytes?_append]
  rfl

end Label

/-- The excerpt in which a label is marked. -/
def Excerpt.ofLabel? (source : List Char) (label : Label) : Option Excerpt :=
  (DisplayPlace.find? label.start (displayLines source)).map fun place =>
    { place, atEnd := label.stop = label.start }

theorem Excerpt.find?_append {before rest : List Char} {p : Position}
    (h : (LineIndex.ofText (before ++ rest)).offset p = utf8Length before) :
    find? (before ++ rest) p =
      ofLabel? (before ++ rest) ⟨before.length, before.length + (rest.take 1).length⟩ := by
  have hend : decide ((LineIndex.ofText (before ++ rest)).size ≤ utf8Length before) =
      decide (before.length + (rest.take 1).length = before.length) := by
    rw [decide_eq_decide, ← Nat.not_lt]
    refine (not_congr utf8Length_lt_iff).trans ?_
    cases rest <;> simp
  rw [find?, h]
  simp only [takeBytes?_append, Option.getD_some, hend]
  rfl

/-- A text is cut between characters only.  The line starts are those that a scan of the bytes
finds, and each of them is a boundary.  Every position whatsoever leads to a boundary that is not
beyond the end of the text; on the way there, and from there to the label, the text can be cut.  The
label lies in the text, is empty at the end of the text only, and is what the excerpt marks. -/
theorem Label.cuts_between_characters (source : List Char) (p : Position) :
    let index := LineIndex.ofText source
    index.starts = 0 :: feedEnds 0 (encode source) ∧
      (∀ start ∈ index.starts, IsBoundary source start) ∧
      index.offset p ≤ index.size ∧ IsBoundary source (index.offset p) ∧
      index.offset? p = some (index.offset p) ∧
      ∃ label, Label.at? source p = some label ∧
        Excerpt.find? source p = Excerpt.ofLabel? source label ∧
        label.start ≤ label.stop ∧ label.stop ≤ source.length ∧
        (label.stop = label.start ↔ index.offset p = index.size) := by
  intro index
  obtain ⟨before, rest, rfl, hoffset, -⟩ := LineIndex.exists_before_of_offset source p
  have hsize : index.size = utf8Length before + utf8Length rest := utf8Length_append before rest
  refine ⟨congrArg (0 :: ·) (LineIndex.startsAfter_eq_feedEnds 0 _), fun start hstart => ?_, ?_,
    ⟨before, List.prefix_append before rest, hoffset.symm⟩, LineIndex.offset?_eq _ p,
    _, at?_append hoffset, Excerpt.find?_append hoffset, Nat.le_add_right _ _, ?_, ?_⟩
  · obtain ⟨lines, below, htext, rfl⟩ := LineIndex.exists_before_of_mem_starts hstart
    exact ⟨lines, htext ▸ List.prefix_append lines below, rfl⟩
  · rw [hoffset, hsize]
    exact Nat.le_add_right _ _
  · rw [List.length_append]
    exact Nat.add_le_add_left (List.length_take_le' 1 rest) _
  · rw [hoffset, hsize]
    cases rest with
    | nil => simp
    | cons c cs =>
        have hpos := c.utf8Size_pos
        simp only [List.take_succ_cons, List.take_zero, List.length_singleton, utf8Length_cons]
        omega

end NameCheck
