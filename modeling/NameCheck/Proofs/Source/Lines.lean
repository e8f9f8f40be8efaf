import Mathlib.Data.List.Induction
import NameCheck.Source.LineIndex

/-!
# Positions and byte offsets

A place in a text is given by what stands before it: its byte offset is the length of that in bytes,
and its position is found by counting lines and columns along it.  A line index converts the one
into the other, in both directions.
-/

namespace NameCheck

namespace Text

/-- A character takes up at least one byte, and the characters after it the bytes that are left. -/
theorem exists_utf8Length_cons (c : Char) (cs : List Char) : ∃ n,
    utf8Length (c :: cs) = n + 1 ∧ c.utf8Size ≤ n + 1 ∧ n + 1 - c.utf8Size = utf8Length cs := by
  have hpos := c.utf8Size_pos
  refine ⟨c.utf8Size - 1 + utf8Length cs, ?_⟩
  rw [utf8Length_cons]
  omega

theorem takeBytes?_append (cs ds : List Char) :
    takeBytes? (utf8Length cs) (cs ++ ds) = some cs := by
  induction cs with
  | nil => rw [utf8Length_nil, takeBytes?]
  | cons c cs ih =>
      obtain ⟨n, hn, hle, hrest⟩ := exists_utf8Length_cons c cs
      rw [hn, List.cons_append, takeBytes?, if_pos hle, hrest, ih]
      rfl

theorem dropBytes_append (cs ds : List Char) : dropBytes (utf8Length cs) (cs ++ ds) = ds := by
  induction cs with
  | nil => rw [utf8Length_nil, dropBytes, List.nil_append]
  | cons c cs ih =>
      obtain ⟨n, hn, -, hrest⟩ := exists_utf8Length_cons c cs
      rw [hn, List.cons_append, dropBytes, hrest, ih]

/-- What stands before a place begins what stands before a later one. -/
theorem exists_append_of_utf8Length_lt {text cs ds : List Char} (hcs : cs <+: text)
    (hds : ds <+: text) (h : utf8Length cs < utf8Length ds) : ∃ es, es ≠ [] ∧ ds = cs ++ es := by
  rcases List.prefix_or_prefix_of_prefix hcs hds with ⟨es, rfl⟩ | ⟨es, rfl⟩
  · refine ⟨es, ?_, rfl⟩
    rintro rfl
    rw [List.append_nil] at h
    exact absurd h (Nat.lt_irrefl _)
  · rw [utf8Length_append] at h
    omega

/-! ## Whole lines -/

/-- A text consists of whole lines: it is empty, or ends in a line feed. -/
def WholeLines (text : List Char) : Prop :=
  text = [] ∨ ∃ cs, text = cs ++ ['\n']

/-- A text consists of whole lines and the beginning of one more. -/
theorem exists_lines (text : List Char) :
    ∃ lines line, text = lines ++ line ∧ WholeLines lines ∧ '\n' ∉ line := by
  induction text using List.reverseRecOn with
  | nil => exact ⟨[], [], rfl, Or.inl rfl, List.not_mem_nil⟩
  | append_singleton text c ih =>
      by_cases hc : c = '\n'
      · subst hc
        exact ⟨text ++ ['\n'], [], (List.append_nil _).symm, Or.inr ⟨text, rfl⟩, List.not_mem_nil⟩
      · obtain ⟨lines, line, rfl, hlines, hline⟩ := ih
        refine ⟨lines, line ++ [c], List.append_assoc _ _ _, hlines, ?_⟩
        rw [List.mem_append, List.mem_singleton]
        exact fun h => h.elim hline fun heq => hc heq.symm

end Text

open Text

namespace Position

theorem line_after (p : Position) (text : List Char) :
    (p.after text).line = p.line + text.count '\n' := by
  induction text generalizing p with
  | nil => rfl
  | cons c cs ih =>
      rw [after_cons, ih, advance, List.count_cons]
      by_cases hc : c = '\n'
      · rw [if_pos hc, if_pos (beq_iff_eq.mpr hc)]
        exact Nat.add_right_comm _ _ _
      · rw [if_neg hc, if_neg (mt beq_iff_eq.mp hc)]
        rfl

theorem after_line {line : List Char} (h : '\n' ∉ line) (p : Position) :
    p.after line = ⟨p.line, p.column + line.length⟩ := by
  induction line generalizing p with
  | nil => rfl
  | cons c cs ih =>
      have hc : c ≠ '\n' := fun heq => h (heq ▸ List.mem_cons_self)
      rw [after_cons, advance, if_neg hc, ih fun hmem => h (List.mem_cons_of_mem _ hmem),
        List.length_cons, Nat.add_assoc, Nat.add_comm 1]

theorem column_after_lines {lines : List Char} (h : WholeLines lines) :
    (first.after lines).column = 1 := by
  rcases h with rfl | ⟨cs, rfl⟩
  · rfl
  · rw [after_append, after_cons, after_nil, advance, if_pos rfl]

/-- Whole lines and the beginning of one more are passed by counting their line feeds and the
characters of the last one. -/
theorem first_after_line {lines line : List Char} (hlines : WholeLines lines)
    (hline : '\n' ∉ line) :
    first.after (lines ++ line) = ⟨lines.count '\n' + 1, line.length + 1⟩ := by
  rw [after_append, after_line hline, line_after, column_after_lines hlines, first,
    Nat.add_comm 1, Nat.add_comm 1]

end Position

/-! ## Where lines start -/

namespace LineIndex

variable {offset start : Nat} {text lines line : List Char}

theorem startsAfter_append (offset : Nat) (cs ds : List Char) :
    startsAfter offset (cs ++ ds) =
      startsAfter offset cs ++ startsAfter (offset + utf8Length cs) ds := by
  induction cs generalizing offset with
  | nil => rfl
  | cons c cs ih =>
      rw [List.cons_append, startsAfter, startsAfter, ih, utf8Length_cons, ← Nat.add_assoc]
      split <;> rfl

theorem startsAfter_line (offset : Nat) (h : '\n' ∉ line) : startsAfter offset line = [] := by
  induction line generalizing offset with
  | nil => rfl
  | cons c cs ih =>
      have hc : c ≠ '\n' := fun heq => h (heq ▸ List.mem_cons_self)
      rw [startsAfter, if_neg hc, ih _ fun hmem => h (List.mem_cons_of_mem _ hmem)]

theorem length_startsAfter (offset : Nat) (text : List Char) :
    (startsAfter offset text).length = text.count '\n' := by
  induction text generalizing offset with
  | nil => rfl
  | cons c cs ih =>
      rw [startsAfter, List.count_cons]
      by_cases hc : c = '\n'
      · rw [if_pos hc, if_pos (beq_iff_eq.mpr hc), List.length_cons, ih]
      · rw [if_neg hc, if_neg (mt beq_iff_eq.mp hc), ih]
        rfl

theorem lineCount_ofText (text : List Char) : (ofText text).lineCount = text.count '\n' + 1 := by
  rw [lineCount, ofText, List.length_cons, length_startsAfter]

/-- A line feed takes up room, so a line after it starts behind where the text begins, and not
behind where it ends. -/
theorem bounds_of_mem_startsAfter (h : start ∈ startsAfter offset text) :
    offset < start ∧ start ≤ offset + utf8Length text := by
  induction text generalizing offset with
  | nil => cases h
  | cons c cs ih =>
      have hpos := c.utf8Size_pos
      have hrest (h : start ∈ startsAfter (offset + c.utf8Size) cs) :
          offset < start ∧ start ≤ offset + utf8Length (c :: cs) := by
        obtain ⟨hlt, hle⟩ := ih h
        rw [utf8Length_cons]
        omega
      rw [startsAfter] at h
      by_cases hc : c = '\n'
      · rw [if_pos hc] at h
        rcases List.mem_cons.mp h with rfl | h
        · rw [utf8Length_cons]
          omega
        · exact hrest h
      · rw [if_neg hc] at h
        exact hrest h

/-- After whole lines the next line starts at their end. -/
theorem getLast?_starts (h : WholeLines lines) :
    (0 :: startsAfter 0 lines).getLast? = some (utf8Length lines) := by
  rcases h with rfl | ⟨cs, rfl⟩
  · rfl
  · rw [startsAfter_append, ← List.cons_append, List.getLast?_append, utf8Length_append]
    simp [startsAfter]

theorem starts_ofText (lines rest : List Char) (h : '\n' ∉ line) :
    (ofText (lines ++ (line ++ rest))).starts =
      (0 :: startsAfter 0 lines) ++ startsAfter (utf8Length lines + utf8Length line) rest := by
  change 0 :: startsAfter 0 (lines ++ (line ++ rest)) = _
  rw [startsAfter_append, startsAfter_append, startsAfter_line _ h, Nat.zero_add]
  rfl

/-! ## There and back -/

/-- The line starts that are not after an offset are those up to the line that the offset is in. -/
theorem filter_starts {rest : List Char} (hline : '\n' ∉ line) (hle : utf8Length lines ≤ offset)
    (hlt : ∀ start ∈ startsAfter (utf8Length lines + utf8Length line) rest, offset < start) :
    (ofText (lines ++ (line ++ rest))).starts.filter (· ≤ offset) = 0 :: startsAfter 0 lines := by
  rw [starts_ofText lines rest hline, List.filter_append]
  have hbefore : (0 :: startsAfter 0 lines).filter (· ≤ offset) = 0 :: startsAfter 0 lines := by
    refine List.filter_eq_self.mpr fun start hstart => decide_eq_true ?_
    rcases List.mem_cons.mp hstart with rfl | hstart
    · exact Nat.zero_le _
    · have hle' := (bounds_of_mem_startsAfter hstart).2
      omega
  have hafter : (startsAfter (utf8Length lines + utf8Length line) rest).filter (· ≤ offset) = [] :=
    List.filter_eq_nil_iff.mpr fun start hstart hle' =>
      Nat.not_le.mpr (hlt start hstart) (of_decide_eq_true hle')
  rw [hbefore, hafter, List.append_nil]

/-- The line of an offset is found by counting, and its column is read off from the line. -/
theorem position_of_lt {rest : List Char} (hlines : WholeLines lines) (hline : '\n' ∉ line)
    (hsize : offset ≤ utf8Length (lines ++ (line ++ rest))) (hle : utf8Length lines ≤ offset)
    (hlt : ∀ start ∈ startsAfter (utf8Length lines + utf8Length line) rest, offset < start) :
    (ofText (lines ++ (line ++ rest))).position offset =
      ⟨lines.count '\n' + 1,
        ((takeBytes? (offset - utf8Length lines) (line ++ rest)).elim
          (offset - utf8Length lines) List.length) + 1⟩ := by
  have hfilter := filter_starts hline hle hlt
  have hmin : min offset (ofText (lines ++ (line ++ rest))).size = offset := Nat.min_eq_left hsize
  have hstart : (ofText (lines ++ (line ++ rest))).lineStart offset = utf8Length lines := by
    rw [lineStart, hfilter, getLast?_starts hlines]
    rfl
  rw [position, hmin, hstart, List.countP_eq_length_filter, hfilter, List.length_cons,
    length_startsAfter, ofText, dropBytes_append]
  cases takeBytes? (offset - utf8Length lines) (line ++ rest) <;> rfl

/-- The position of the offset of a place is found by counting along what stands before it. -/
theorem position_utf8Length (before rest : List Char) :
    (ofText (before ++ rest)).position (utf8Length before) = Position.first.after before := by
  obtain ⟨lines, line, rfl, hlines, hline⟩ := exists_lines before
  rw [List.append_assoc, utf8Length_append, Position.first_after_line hlines hline]
  have hsize : utf8Length lines + utf8Length line ≤ utf8Length (lines ++ (line ++ rest)) := by
    simp only [utf8Length_append]
    omega
  have hlt : ∀ start ∈ startsAfter (utf8Length lines + utf8Length line) rest,
      utf8Length lines + utf8Length line < start :=
    fun start hstart => (bounds_of_mem_startsAfter hstart).1
  rw [position_of_lt hlines hline hsize (Nat.le_add_right _ _) hlt, Nat.add_sub_cancel_left,
    takeBytes?_append]
  rfl

/-- The offset of a position that is found by counting along a text is the length of the text. -/
theorem offset_after (before rest : List Char) :
    (ofText (before ++ rest)).offset (Position.first.after before) = utf8Length before := by
  obtain ⟨lines, line, rfl, hlines, hline⟩ := exists_lines before
  rw [List.append_assoc, Position.first_after_line hlines hline, offset,
    starts_ofText lines rest hline]
  have hlast : (0 :: startsAfter 0 lines)[lines.count '\n']? = some (utf8Length lines) := by
    rw [← length_startsAfter 0 lines, ← getLast?_starts hlines, List.getLast?_eq_getElem?]
    rfl
  have hlt : lines.count '\n' < (0 :: startsAfter 0 lines).length := by
    rw [List.length_cons, length_startsAfter]
    exact Nat.lt_succ_self _
  rw [Nat.add_sub_cancel, List.getElem?_append_left hlt, hlast, Nat.add_sub_cancel]
  simp [ofText, dropBytes_append, utf8Length_append]

end LineIndex

end NameCheck
