import Mathlib.Data.List.TakeDrop
import NameCheck.Proofs.Report.Colors
import NameCheck.Proofs.Report.Labels

/-!
# Excerpts show the place of a diagnostic

An excerpt counts lines and columns along the lines of a display, a position along line feeds.  In a
text whose lines end in line feeds, alone or behind carriage returns, both are the same: the heading
of the excerpt has the numbers of the position, the line is the one of the position, and what is
marked is the character at its offset.
-/

namespace NameCheck

open Text

/-! ## Line ends -/

namespace Text

variable {text lines line rest cs ds : List Char} {c : Char}

/-- No line of a text ends in another way than with a line feed, alone or behind a carriage
return. -/
structure LineFeedsOnly (text : List Char) : Prop where
  others : ∀ c ∈ text, c ∉ ['\x0b', '\x0c', '\u0085', '\u2028', '\u2029']
  returns : ∀ n, text[n]? = some '\r' → text[n + 1]? = some '\n'

instance (text : List Char) : Decidable (LineFeedsOnly text) :=
  decidable_of_iff
    ((text.all fun c => c ∉ ['\x0b', '\x0c', '\u0085', '\u2028', '\u2029']) = true ∧
      ∀ n < text.length, text[n]? = some '\r' → text[n + 1]? = some '\n')
    ⟨fun ⟨others, returns⟩ =>
      ⟨fun c hc => of_decide_eq_true (List.all_eq_true.mp others c hc),
        fun n hn => returns n (List.getElem?_eq_some_iff.mp hn).1 hn⟩,
    fun h => ⟨List.all_eq_true.mpr fun c hc => decide_eq_true (h.others c hc),
      fun n _ => h.returns n⟩⟩

theorem LineFeedsOnly.of_append (h : LineFeedsOnly (cs ++ ds)) : LineFeedsOnly ds where
  others c hc := h.others c (List.mem_append_right cs hc)
  returns n hn := by
    have hlater (m : Nat) : (cs ++ ds)[cs.length + m]? = ds[m]? := by
      rw [List.getElem?_append_right (Nat.le_add_right _ _), Nat.add_sub_cancel_left]
    rw [← hlater] at hn ⊢
    exact h.returns _ hn

theorem LineFeedsOnly.of_cons (h : LineFeedsOnly (c :: cs)) : LineFeedsOnly cs :=
  @LineFeedsOnly.of_append [c] cs h

theorem eq_of_isLineEnd (h : isLineEnd c = true) :
    c = '\n' ∨ c = '\r' ∨ c ∈ ['\x0b', '\x0c', '\u0085', '\u2028', '\u2029'] := by
  have hnat : c.toNat = 10 ∨ c.toNat = 11 ∨ c.toNat = 12 ∨ c.toNat = 13 ∨ c.toNat = 0x85 ∨
      c.toNat = 0x2028 ∨ c.toNat = 0x2029 := by
    simp only [isLineEnd, Bool.or_eq_true, Bool.and_eq_true, decide_eq_true_eq, beq_iff_eq] at h
    omega
  rw [← Char.ofNat_toNat c]
  rcases hnat with h | h | h | h | h | h | h <;> rw [h] <;> decide

/-- A character that is neither of both does not end a line. -/
theorem LineFeedsOnly.isLineEnd_eq_false (h : LineFeedsOnly text) (hc : c ∈ text)
    (hfeed : c ≠ '\n') (hreturn : c ≠ '\r') : isLineEnd c = false := by
  rw [Bool.eq_false_iff]
  intro hend
  rcases eq_of_isLineEnd hend with rfl | rfl | hother
  · exact hfeed rfl
  · exact hreturn rfl
  · exact h.others c hc hother

theorem WholeLines.of_append_cons (h : WholeLines (line ++ '\n' :: lines)) : WholeLines lines := by
  rcases List.eq_nil_or_concat' lines with rfl | ⟨front, last, rfl⟩
  · exact Or.inl rfl
  · rcases h with h | ⟨cs, h⟩
    · exact absurd h (List.append_ne_nil_of_right_ne_nil _ (List.cons_ne_nil _ _))
    · rw [← List.cons_append, ← List.append_assoc] at h
      obtain ⟨-, hlast⟩ := List.append_inj' h rfl
      exact Or.inr ⟨front, by rw [hlast]⟩

/-- Induction on whole lines, one after the other. -/
theorem WholeLines.induction {motive : (text : List Char) → WholeLines text → Prop}
    (nil : ∀ h, motive [] h)
    (cons : ∀ line lines h hlines, '\n' ∉ line → motive lines hlines →
      motive (line ++ '\n' :: lines) h)
    (text : List Char) (h : WholeLines text) : motive text h := by
  induction hn : text.length using Nat.strong_induction_on generalizing text with
  | _ n ih =>
      by_cases hmem : '\n' ∈ text
      · obtain ⟨line, lines, rfl, hline⟩ := List.eq_append_cons_of_mem hmem
        have hlt : lines.length < n := by
          rw [← hn, List.length_append, List.length_cons]
          omega
        exact cons line lines h h.of_append_cons hline (ih _ hlt lines h.of_append_cons rfl)
      · rcases id h with rfl | ⟨cs, rfl⟩
        · exact nil h
        · exact absurd (List.mem_append_right cs List.mem_cons_self) hmem

theorem trimEnd_concat (text : List Char) (h : isWhiteSpace c = true) :
    trimEnd (text ++ [c]) = trimEnd text := by
  rw [trimEnd, List.reverse_append, List.reverse_singleton, List.singleton_append,
    List.dropWhile_cons_of_pos h, trimEnd]

theorem trimEnd_isPrefix (text : List Char) : trimEnd text <+: text := by
  have hsuffix := List.dropWhile_suffix isWhiteSpace (l := text.reverse)
  rw [← List.reverse_prefix, List.reverse_reverse] at hsuffix
  exact hsuffix

end Text

/-! ## Lines of a display -/

section DisplayLines

variable {lines line rest head more after : List Char} {c : Char} {n : Nat}

/-- A character that does not end a line joins the line behind it. -/
theorem displayLines_cons {others : List (List Char)} (hreturn : c ≠ '\r')
    (hend : isLineEnd c = false) (h : displayLines rest = line :: others) :
    displayLines (c :: rest) = (c :: line) :: others := by
  rw [displayLines.eq_3 c rest (fun _ heq _ => hreturn heq), hend, h]
  rfl

/-- Up to a line feed a display has one line. -/
theorem displayLines_line (hline : '\n' ∉ line) (h : LineFeedsOnly (line ++ '\n' :: rest)) :
    displayLines (line ++ '\n' :: rest) = (line ++ ['\n']) :: displayLines rest := by
  induction line with
  | nil =>
      have hreturn : '\n' ≠ '\r' := by decide
      rw [List.nil_append, displayLines.eq_3 '\n' rest (fun _ heq _ => hreturn heq),
        if_pos (by decide)]
      rfl
  | cons c cs ih =>
      obtain ⟨hc, hcs⟩ := List.ne_and_not_mem_of_not_mem_cons hline
      by_cases hreturn : c = '\r'
      · subst hreturn
        -- the line feed of this carriage return is the one that ends the line
        have hfeed := h.returns 0 rfl
        cases cs with
        | nil => rfl
        | cons d ds =>
            obtain rfl : d = '\n' := Option.some.inj hfeed
            exact absurd List.mem_cons_self hcs
      · have hend := h.isLineEnd_eq_false List.mem_cons_self hc.symm hreturn
        exact displayLines_cons hreturn hend (ih hcs h.of_cons)

/-- The last line of a display has no line feed. -/
theorem displayLines_last (hline : '\n' ∉ line) (h : LineFeedsOnly line) (hne : line ≠ []) :
    displayLines line = [line] := by
  induction line with
  | nil => exact absurd rfl hne
  | cons c cs ih =>
      obtain ⟨hc, hcs⟩ := List.ne_and_not_mem_of_not_mem_cons hline
      have hreturn : c ≠ '\r' := by
        rintro rfl
        exact hcs (List.mem_of_getElem? (h.returns 0 rfl))
      have hend := h.isLineEnd_eq_false List.mem_cons_self hc.symm hreturn
      cases cs with
      | nil =>
          rw [displayLines.eq_3 c [] (fun _ heq _ => hreturn heq), hend]
          rfl
      | cons d ds =>
          have hih := ih hcs h.of_cons (List.cons_ne_nil d ds)
          exact displayLines_cons hreturn hend hih

theorem isEmpty_displayLines (h : rest ≠ []) : (displayLines rest).isEmpty = false := by
  rw [List.isEmpty_eq_false_iff]
  intro hnil
  have hflatten := flatten_displayLines rest
  rw [hnil] at hflatten
  exact h hflatten.symm

/-- A place behind whole lines is found in what is behind them, with their number above it. -/
theorem DisplayPlace.find?_lines (hlines : WholeLines lines) (h : LineFeedsOnly (lines ++ rest))
    (hrest : rest ≠ []) : find? (lines.length + n) (displayLines (lines ++ rest)) =
      (find? n (displayLines rest)).map fun place =>
        { place with above := place.above + lines.count '\n' } := by
  induction lines, hlines using WholeLines.induction with
  | nil _ =>
      rw [List.length_nil, Nat.zero_add, List.nil_append]
      exact Option.map_id'.symm
  | cons line lines _ _ hline ih =>
      rw [List.append_assoc, List.cons_append] at h
      have hbelow := isEmpty_displayLines (List.append_ne_nil_of_right_ne_nil lines hrest)
      have hoffset : (line ++ '\n' :: lines).length + n - (line ++ ['\n']).length =
          lines.length + n := by
        simp only [List.length_append, List.length_cons, List.length_nil]
        omega
      have hnot : ¬(line ++ '\n' :: lines).length + n < (line ++ ['\n']).length := by
        simp only [List.length_append, List.length_cons, List.length_nil]
        omega
      have hcount : (line ++ '\n' :: lines).count '\n' = lines.count '\n' + 1 := by
        rw [List.count_append, List.count_eq_zero.mpr hline, Nat.zero_add, List.count_cons_self]
      rw [List.append_assoc, List.cons_append, displayLines_line hline h, find?, hbelow,
        decide_eq_false hnot, hoffset, ih h.of_append.of_cons, hcount]
      simp [Option.map_map, Function.comp_def, Nat.add_assoc]

/-- The place of a character is its line, which goes on up to the next line feed, and the number of
characters before it in this line.  At the end of a text this holds if its last line is not
empty. -/
theorem DisplayPlace.find?_displayLines (hlines : WholeLines lines) (hhead : '\n' ∉ head)
    (hmore : '\n' ∉ more) (hafter : after = [] ∨ ∃ behind, after = '\n' :: behind)
    (h : LineFeedsOnly (lines ++ (head ++ more ++ after))) (hne : head ++ more ++ after ≠ []) :
    find? (lines ++ head).length (displayLines (lines ++ (head ++ more ++ after))) =
      some ⟨lines.count '\n', head.length, head ++ more ++ after.take 1⟩ := by
  have hline : '\n' ∉ head ++ more := fun h => (List.mem_append.mp h).elim hhead hmore
  rw [List.length_append, find?_lines hlines h hne]
  rcases hafter with rfl | ⟨behind, rfl⟩
  · rw [List.append_nil] at h hne
    rw [List.append_nil, displayLines_last hline h.of_append hne]
    simp [find?]
  · have hlt : head.length < (head ++ more ++ ['\n']).length := by
      simp only [List.length_append, List.length_cons, List.length_nil]
      omega
    rw [displayLines_line hline h.of_append, find?, decide_eq_true hlt]
    simp

end DisplayLines

/-! ## Rows -/

namespace Text.Styled

theorem render_append (colors : Bool) (text more : Styled) :
    render colors (text ++ more) = render colors text ++ render colors more := by
  cases colors <;> simp [render, ansi, plain, String.ofList_append]

end Text.Styled

/-- How wide a text is displayed. -/
def Text.totalWidth : List Char → Nat
  | [] => 0
  | c :: cs => displayWidth c + totalWidth cs

namespace Excerpt

variable {e : Excerpt} {mark : Style} {c : Char} {cs ds shown : List Char} {column : Nat}

/-- What is drawn for the characters of a line from one of them on, which has `column` characters
before it: the characters themselves, with spaces for white space. -/
def glyphsFrom : Nat → List Char → List Char
  | _, [] => []
  | column, c :: cs => glyphs column c ++ glyphsFrom (column + 1) cs

theorem glyphsFrom_append (column : Nat) (cs ds : List Char) :
    glyphsFrom column (cs ++ ds) = glyphsFrom column cs ++ glyphsFrom (column + cs.length) ds := by
  induction cs generalizing column with
  | nil => rfl
  | cons c cs ih =>
      rw [List.cons_append, glyphsFrom, glyphsFrom, ih, List.append_assoc, List.length_cons,
        Nat.add_assoc, Nat.add_comm 1]

/-- A line in which the character that has `column` characters before it has a style of its own. -/
def drawnLine (mark : Style) (column : Nat) (shown : List Char) : Styled :=
  drawn format.unmarked (glyphsFrom 0 (shown.take column)) ++
    drawn mark (glyphsFrom column ((shown.drop column).take 1)) ++
    drawn format.unmarked (glyphsFrom (column + 1) (shown.drop (column + 1)))

/-- Characters of a line that have the same style. -/
theorem flatMap_drawn {style : Nat → Style} {one : Style}
    (h : ∀ i, column ≤ i → i < column + cs.length → style i = one) :
    ((cs.zipIdx column).flatMap fun cell => drawn (style cell.2) (glyphs cell.2 cell.1)) =
      drawn one (glyphsFrom column cs) := by
  induction cs generalizing column with
  | nil => rfl
  | cons c cs ih =>
      rw [List.length_cons] at h
      rw [List.zipIdx_cons, List.flatMap_cons, ih fun i hle hlt => h i (by omega) (by omega),
        h column (Nat.le_refl _) (by omega), glyphsFrom, drawn, drawn, drawn, List.map_append]

/-- Behind the end of the line that is shown, nothing of it is marked. -/
theorem lineRow_eq (h : e.atEnd = true → e.shown.length ≤ e.place.column) :
    e.lineRow mark = drawnLine mark e.place.column e.shown := by
  let style (i : Nat) : Style := if i = e.place.column && !e.atEnd then mark else format.unmarked
  have hother (i : Nat) (hi : i ≠ e.place.column) : style i = format.unmarked :=
    if_neg (by simp [hi])
  change (e.shown.zipIdx.flatMap fun cell => drawn (style cell.2) (glyphs cell.2 cell.1)) = _
  rcases Nat.lt_or_ge e.place.column e.shown.length with hlt | hge
  · have hmarked : style e.place.column = mark := by
      have hend : e.atEnd = false := by
        rw [Bool.eq_false_iff]
        exact fun hend => absurd (h hend) (Nat.not_le.mpr hlt)
      exact if_pos (by simp [hend])
    have hshown : e.shown = e.shown.take e.place.column ++
        ((e.shown.drop e.place.column).take 1 ++ e.shown.drop (e.place.column + 1)) := by
      rw [← List.drop_drop, List.take_append_drop, List.take_append_drop]
    have htake : (e.shown.take e.place.column).length = e.place.column :=
      List.length_take_of_le hlt.le
    have hone : ((e.shown.drop e.place.column).take 1).length = 1 := by
      rw [List.length_take, List.length_drop]
      omega
    conv_lhs => rw [hshown]
    rw [List.zipIdx_append, List.zipIdx_append, List.flatMap_append, List.flatMap_append, htake,
      hone, Nat.zero_add, flatMap_drawn fun i _ hi => hother i (by omega),
      flatMap_drawn fun i hle hi => (by omega : i = e.place.column) ▸ hmarked,
      flatMap_drawn fun i hi _ => hother i (by omega), drawnLine, List.append_assoc]
  · rw [drawnLine, List.take_of_length_le hge, List.drop_of_length_le hge,
      List.drop_of_length_le (by omega), flatMap_drawn fun i _ hi => hother i (by omega)]
    simp [glyphsFrom, drawn]

/-! ## Marks -/

theorem totalWidth_replicate (n : Nat) : totalWidth (List.replicate n ' ') = n := by
  have hwidth : displayWidth ' ' = 1 := by decide
  induction n with
  | zero => rfl
  | succ n ih => rw [List.replicate_succ, totalWidth, ih, hwidth, Nat.add_comm]

theorem totalWidth_append (cs ds : List Char) :
    totalWidth (cs ++ ds) = totalWidth cs + totalWidth ds := by
  induction cs with
  | nil => exact (Nat.zero_add _).symm
  | cons c cs ih => rw [List.cons_append, totalWidth, totalWidth, ih, Nat.add_assoc]

/-- What is drawn for a character is as wide as its cell. -/
theorem totalWidth_glyphs (column : Nat) (c : Char) :
    totalWidth (glyphs column c) = cellWidth column c := by
  rw [glyphs]
  by_cases hspace : isWhiteSpace c = true
  · rw [if_pos hspace, totalWidth_replicate]
  · have htab : c ≠ '\t' := by
      rintro rfl
      exact hspace (by decide)
    rw [if_neg hspace, cellWidth, if_neg htab, if_neg hspace]
    exact Nat.add_zero _

/-- How wide the cell below a column of a line is. -/
def widthAt (shown : List Char) (column : Nat) : Nat :=
  match shown[column]? with
  | some c => cellWidth column c
  | none => 1

/-- One more column is as wide as its cell. -/
theorem totalWidth_take_succ (shown : List Char) (column : Nat) :
    totalWidth (glyphsFrom 0 (shown.take (column + 1))) + (column + 1 - shown.length) =
      totalWidth (glyphsFrom 0 (shown.take column)) + (column - shown.length) +
        widthAt shown column := by
  rw [widthAt]
  rcases Nat.lt_or_ge column shown.length with hlt | hge
  · have hglyphs : glyphsFrom 0 (shown.take (column + 1)) =
        glyphsFrom 0 (shown.take column) ++ glyphs column shown[column] := by
      rw [List.take_succ_eq_append_getElem hlt, glyphsFrom_append, Nat.zero_add,
        List.length_take_of_le hlt.le, glyphsFrom, glyphsFrom, List.append_nil]
    simp only [List.getElem?_eq_getElem hlt, hglyphs, totalWidth_append, totalWidth_glyphs]
    omega
  · simp only [List.getElem?_eq_none hge, List.take_of_length_le hge,
      List.take_of_length_le (Nat.le_succ_of_le hge)]
    omega

theorem render_blanks (colors : Bool) (n : Nat) :
    (blanks n).render colors = String.ofList (List.replicate n ' ') := by
  cases colors <;> simp [blanks, Styled.render, Styled.ansi, Styled.plain, Styled.bare, Run.ansi]

/-- The cells below the beginning of a line are as wide as what is drawn there, and one for each
column behind the end of the line. -/
theorem render_widthAt (colors : Bool) (shown : List Char) (column : Nat) :
    Styled.render colors (((List.range column).map (widthAt shown)).flatMap blanks) =
      Styled.render colors
        (blanks (totalWidth (glyphsFrom 0 (shown.take column)) + (column - shown.length))) := by
  induction column with
  | zero =>
      rw [render_blanks, Nat.zero_sub]
      cases colors <;> rfl
  | succ column ih =>
      rw [List.range_succ, List.map_append, List.map_singleton, List.flatMap_append,
        List.flatMap_singleton, Styled.render_append, ih, totalWidth_take_succ, render_blanks,
        render_blanks, render_blanks, ← String.ofList_append, List.replicate_append_replicate]

/-- Where no column is the marked one, the row of the mark is blank. -/
theorem flatMap_blanks {widths : List Nat} {start : Nat} (signs : Nat → Styled)
    (h : ∀ i, start ≤ i → i < start + widths.length → i ≠ column) :
    ((widths.zipIdx start).flatMap fun cell =>
      if cell.2 = column then signs cell.1 else blanks cell.1) = widths.flatMap blanks := by
  induction widths generalizing start with
  | nil => rfl
  | cons width widths ih =>
      rw [List.length_cons] at h
      rw [List.zipIdx_cons, List.flatMap_cons, ih fun i hle hlt => h i (by omega) (by omega),
        if_neg (h start (Nat.le_refl _) (by omega)), List.flatMap_cons]

/-- The sign of a mark in a cell: a bar at the end of a text, and a bracket below a character. -/
def sign (atEnd : Bool) (width : Nat) : List Char :=
  if atEnd then cell width '│' ' ' else cell width '┬' '─'

theorem exists_range_append (m n : Nat) :
    ∃ others, List.range (m + (n + 1)) = List.range m ++ m :: others := by
  refine ⟨((List.range n).map Nat.succ).map (m + ·), ?_⟩
  rw [List.range_add, List.range_succ_eq_map, List.map_cons, Nat.add_zero]

/-- The mark stands below its character. -/
theorem exists_render_markRow (e : Excerpt) (mark : Style) : ∃ behind : Styled, ∀ colors,
    (e.markRow mark).render colors =
      Styled.render colors
        (blanks (totalWidth (glyphsFrom 0 (e.shown.take e.place.column)) +
            (e.place.column - e.shown.length)) ++
          drawn mark (sign e.atEnd (widthAt e.shown e.place.column)) ++ behind) := by
  obtain ⟨others, hrange⟩ := exists_range_append e.place.column ((if e.atEnd then 0 else 1) + 1)
  have hwidths : e.cellWidths = (List.range e.place.column).map (widthAt e.shown) ++
      widthAt e.shown e.place.column :: others.map (widthAt e.shown) := by
    rw [← List.map_cons, ← List.map_append, ← hrange]
    rfl
  have hrow : e.markRow mark =
      ((List.range e.place.column).map (widthAt e.shown)).flatMap blanks ++
        (drawn mark (sign e.atEnd (widthAt e.shown e.place.column)) ++
          (others.map (widthAt e.shown)).flatMap blanks) := by
    have hsign : e.markRow mark = e.cellWidths.zipIdx.flatMap fun cell =>
        if cell.2 = e.place.column then drawn mark (sign e.atEnd cell.1) else blanks cell.1 := by
      unfold markRow sign
      cases e.atEnd <;> rfl
    rw [hsign, hwidths, List.zipIdx_append, List.flatMap_append, List.zipIdx_cons,
      List.flatMap_cons, List.length_map, List.length_range, Nat.zero_add, if_pos rfl,
      flatMap_blanks fun width => drawn mark (sign e.atEnd width),
      flatMap_blanks fun width => drawn mark (sign e.atEnd width)]
    · intro i hi _
      omega
    · intro i _ hi
      rw [List.length_map, List.length_range] at hi
      omega
  refine ⟨(others.map (widthAt e.shown)).flatMap blanks, fun colors => ?_⟩
  rw [hrow, Styled.render_append, render_widthAt, ← Styled.render_append, List.append_assoc]

/-! ## The place of a diagnostic -/

/-- An excerpt shows a position: it has the numbers of its line and column, and the line without the
white space at its end.  What is behind the column in the line is the beginning of what is behind
the position in the text, of which nothing is left at the end of the text only. -/
structure ShowsPlace (e : Excerpt) (p : Position) (line rest : List Char) : Prop where
  lineNumber : e.lineNumber = p.line
  columnNumber : e.columnNumber = p.column
  shown : e.shown = trimEnd line
  behind : line.drop (p.column - 1) <+: rest
  atEnd : e.atEnd = decide (rest = [])

section ShowsPlace

variable {p : Position} {line rest : List Char} {source before : List Char} {o : Nat}

theorem ShowsPlace.column_eq (h : e.ShowsPlace p line rest) : e.place.column = p.column - 1 := by
  rw [← h.columnNumber]
  rfl

/-- What the line shows at the column is the next character of the text. -/
theorem ShowsPlace.eq_of_shown (h : e.ShowsPlace p line rest)
    (hc : (trimEnd line)[p.column - 1]? = some c) : rest.take 1 = [c] := by
  obtain ⟨tail, htail⟩ := trimEnd_isPrefix line
  obtain ⟨after, hafter⟩ := h.behind
  have hline : (line)[p.column - 1]? = some c := by
    obtain ⟨hlt, -⟩ := List.getElem?_eq_some_iff.mp hc
    rw [← htail, List.getElem?_append_left hlt, hc]
  have hdrop : (line.drop (p.column - 1))[0]? = some c := by
    rwa [List.getElem?_drop, Nat.add_zero]
  obtain ⟨more, hmore⟩ := List.head?_eq_some_iff.mp (List.head?_eq_getElem?.trans hdrop)
  rw [← hafter, hmore]
  rfl

theorem ShowsPlace.length_shown_le (h : e.ShowsPlace p line rest) (hend : e.atEnd = true) :
    e.shown.length ≤ e.place.column := by
  rw [h.atEnd, decide_eq_true_eq] at hend
  have hnil := h.behind
  rw [hend, List.prefix_nil, List.drop_eq_nil_iff] at hnil
  rw [h.shown, h.column_eq]
  exact (trimEnd_isPrefix line).length_le.trans hnil

/-- The excerpt at the position of an offset shows this position. -/
theorem exists_showsPlace (hne : source ≠ []) (hends : LineFeedsOnly source)
    (hlast : o < utf8Length source ∨ source.getLast? ≠ some '\n')
    (hsource : source = before ++ rest) (ho : utf8Length before = o) :
    ∃ e line, find? source ((LineIndex.ofText source).position o) = some e ∧
      (source.splitOn '\n')[((LineIndex.ofText source).position o).line - 1]? = some line ∧
      e.ShowsPlace ((LineIndex.ofText source).position o) line rest := by
  obtain ⟨lines, head, rfl, hlines, hhead⟩ := exists_lines before
  obtain ⟨more, after, rfl, hmore, hafter⟩ := exists_line_end rest
  have hposition : (LineIndex.ofText source).position o =
      ⟨lines.count '\n' + 1, head.length + 1⟩ := by
    rw [hsource, ← ho, LineIndex.position_utf8Length, Position.first_after_line hlines hhead]
  have hoffset : (LineIndex.ofText source).offset ⟨lines.count '\n' + 1, head.length + 1⟩ = o := by
    rw [← Position.first_after_line hlines hhead, hsource, LineIndex.offset_after, ho]
  have htext : source = lines ++ (head ++ more ++ after) := by
    rw [hsource]
    simp only [List.append_assoc]
  have hline : '\n' ∉ head ++ more := fun h => (List.mem_append.mp h).elim hhead hmore
  -- A line is left to be shown: the last one is not empty where the text does not go on.
  have hrow : head ++ more ++ after ≠ [] := by
    intro hnil
    rw [hnil, List.append_nil] at htext
    rw [List.append_assoc, List.append_eq_nil_iff] at hnil
    obtain ⟨rfl, hrest⟩ := hnil
    rcases hlast with hlt | hfeed
    · rw [hsource, hrest, List.append_nil, ho] at hlt
      exact absurd hlt (Nat.lt_irrefl o)
    · rcases hlines with rfl | ⟨cs, rfl⟩
      · exact hne htext
      · rw [htext, List.getLast?_concat] at hfeed
        exact hfeed rfl
  have hplace := DisplayPlace.find?_displayLines hlines hhead hmore hafter (htext ▸ hends) hrow
  have hfind := find?_append (p := ⟨lines.count '\n' + 1, head.length + 1⟩)
    ((hsource ▸ hoffset).trans ho.symm)
  rw [ofLabel?, List.append_assoc lines, ← List.append_assoc head, hplace, Option.map_some,
    ← htext] at hfind
  rw [hposition]
  refine ⟨_, head ++ more, hfind, ?_, rfl, rfl, ?_, ?_, ?_⟩
  · rw [htext]
    exact splitOn_lines hlines hline hafter
  · rw [shown]
    rcases hafter with rfl | ⟨behind, rfl⟩
    · rw [List.take_nil, List.append_nil]
    · exact trimEnd_concat _ (by decide)
  · rw [Nat.add_sub_cancel, List.drop_left]
    exact List.prefix_append more after
  · rw [decide_eq_decide]
    cases more ++ after <;> simp

end ShowsPlace

/-- The rows of an excerpt up to its mark: the name of the text with the position, the line, in
which the character at the position has a style of its own, and the margin of the row below. -/
def placeRows (name : String) (p : Position) (mark : Style) (shown : List Char) : Styled :=
  let number := toString p.line
  let margin := fun (text : String) => Styled.styled format.margin text
  let indent := blanks (number.length + 2)
  let spaces := String.ofList (List.replicate (number.length + 1) ' ')
  indent ++ margin "╭" ++ margin "─" ++ margin "[" ++ .bare (name ++ ":" ++ p.text) ++ margin "]"
    ++ .bare "\n" ++ indent ++ margin "│" ++ .bare "\n"
    ++ .bare " " ++ margin (number ++ " │") ++ .bare " "
    ++ drawnLine mark (p.column - 1) shown ++ .bare "\n"
    ++ .bare " " ++ .styled format.skipped (spaces ++ "│") ++ .bare " "

/-- The row of a mark up to its end: blanks that are as wide as what is drawn before the character
at the position, and below this character the sign. -/
def markBelow (p : Position) (mark : Style) (shown : List Char) (atEnd : Bool) : Styled :=
  blanks (totalWidth (glyphsFrom 0 (shown.take (p.column - 1))) + (p.column - 1 - shown.length))
    ++ drawn mark (sign atEnd (widthAt shown (p.column - 1)))

/-- An excerpt begins with the rows of its place. -/
theorem ShowsPlace.exists_framed {p : Position} {line rest : List Char}
    (h : e.ShowsPlace p line rest) (d : Diagnostic) (name : String) : ∃ others,
    d.framed name e = placeRows name p d.severity.markStyle (trimEnd line) ++
      (e.markRow d.severity.markStyle ++ others) := by
  have hline : e.lineRow d.severity.markStyle =
      drawnLine d.severity.markStyle (p.column - 1) (trimEnd line) := by
    rw [lineRow_eq h.length_shown_le, h.column_eq, h.shown]
  obtain ⟨lineNumber, columnNumber⟩ := p
  obtain rfl := h.lineNumber
  obtain rfl := h.columnNumber
  unfold Diagnostic.framed placeRows
  extract_lets mark number margin indent spaces bar
  have hheading : name ++ ":" ++ number ++ ":" ++ toString e.columnNumber =
      name ++ ":" ++ Position.text ⟨e.lineNumber, e.columnNumber⟩ := by
    rw [Position.text, ← String.append_assoc, ← String.append_assoc]
  rw [hheading, hline]
  simp only [bar, List.append_assoc]
  exact ⟨_, rfl⟩

theorem ShowsPlace.exists_render_framed {p : Position} {line rest : List Char}
    (h : e.ShowsPlace p line rest) (d : Diagnostic) (name : String) : ∃ behind : Styled,
    ∀ colors, Styled.render colors (d.framed name e) =
      Styled.render colors (placeRows name p d.severity.markStyle (trimEnd line) ++
        markBelow p d.severity.markStyle (trimEnd line) (rest = []) ++ behind) := by
  obtain ⟨others, hframed⟩ := h.exists_framed d name
  obtain ⟨behind, hmark⟩ := e.exists_render_markRow d.severity.markStyle
  rw [h.column_eq, h.shown, h.atEnd] at hmark
  refine ⟨behind ++ others, fun colors => ?_⟩
  simp only [hframed, Styled.render_append, hmark, markBelow, String.append_assoc]

end Excerpt

namespace Diagnostic

variable {d : Diagnostic} {source : List Char} {o : Nat}

/-- An excerpt shows the place of its diagnostic.  Let a text not be empty, and its lines end in
line feeds, alone or behind carriage returns.  Let the position of a diagnostic be that of a place
in the text, other than the place behind a line feed at the end.  Then the excerpt is headed by the
name of the text and the position, shows the line of the position, and marks the character at the
offset, or nothing at the end of the text: the label covers it, it alone has the style of the mark
if it is drawn, and the mark stands below it. -/
theorem excerpt_shows_place (hne : source ≠ []) (hends : LineFeedsOnly source)
    (ho : IsBoundary source o) (hlast : o < utf8Length source ∨ source.getLast? ≠ some '\n')
    (hp : d.position = some ((LineIndex.ofText source).position o)) (name : String) :
    let p := (LineIndex.ofText source).position o
    let mark := d.severity.markStyle
    ∃ before marked after line behind,
      source = before ++ (marked ++ after) ∧ utf8Length before = o ∧
      marked.length = (if o = utf8Length source then 0 else 1) ∧
      Label.at? source p = some ⟨before.length, before.length + marked.length⟩ ∧
      (source.splitOn '\n')[p.line - 1]? = some line ∧
      (∀ c, (trimEnd line)[p.column - 1]? = some c → marked = [c]) ∧
      ∀ colors, d.writeWithSource colors name source = Styled.render colors
        (.styled mark d.severity.heading ++ .bare (" " ++ d.message ++ "\n") ++
          Excerpt.placeRows name p mark (trimEnd line) ++
          Excerpt.markBelow p mark (trimEnd line) (marked = []) ++ behind) := by
  intro p mark
  have hoffset := (LineIndex.position_of_boundary ho).2
  obtain ⟨before, ⟨rest, rfl⟩, rfl⟩ := ho
  obtain ⟨e, line, hfind, hline, hshows⟩ := Excerpt.exists_showsPlace hne hends hlast rfl rfl
  obtain ⟨behind, hframed⟩ := hshows.exists_render_framed d name
  have hmarked : rest.take 1 = [] ↔ rest = [] := by
    cases rest <;> simp
  refine ⟨before, rest.take 1, rest.drop 1, line, behind, ?_, rfl, ?_, Label.at?_append hoffset,
    hline, fun c => hshows.eq_of_shown, fun colors => ?_⟩
  · rw [List.take_append_drop]
  · cases rest with
    | nil => simp
    | cons c cs =>
        have hlt : utf8Length before < utf8Length (before ++ c :: cs) :=
          utf8Length_lt_iff.mpr (List.cons_ne_nil c cs)
        rw [if_neg hlt.ne]
        rfl
  · have hwritten : d.writeWithSource colors name (before ++ rest) =
        Styled.render colors (.styled mark d.severity.heading ++ .bare (" " ++ d.message ++ "\n") ++
          d.framed name e) := by
      rw [writeWithSource, hp]
      change Styled.render colors (d.withSource name (before ++ rest)) = _
      rw [withSource, hp]
      dsimp only
      rw [hfind]
    rw [hwritten, Styled.render_append, hframed colors]
    simp only [hmarked, Styled.render_append, String.append_assoc]
    rfl

/-- A wide character behind a tab, in a text whose lines end in two characters. -/
theorem excerpt_shows_place_of_wide_character :
    let source := "é\r\n\t好 = 1;\r\n".toList
    let p : Position := ⟨2, 2⟩
    let d : Diagnostic := .fatal "undeclared identifier" p []
    (source ≠ [] ∧ LineFeedsOnly source ∧ IsBoundary source 5 ∧
      (5 < utf8Length source ∨ source.getLast? ≠ some '\n') ∧
      d.position = some ((LineIndex.ofText source).position 5)) ∧
    ∃ before marked after line behind,
      source = before ++ (marked ++ after) ∧ utf8Length before = 5 ∧ marked.length = 1 ∧
      Label.at? source p = some ⟨before.length, before.length + marked.length⟩ ∧
      (source.splitOn '\n')[1]? = some line ∧
      (∀ c, (trimEnd line)[1]? = some c → marked = [c]) ∧
      ∀ colors, d.writeWithSource colors "a.carrot" source = Styled.render colors
        (.styled .red "Error:" ++ .bare " undeclared identifier\n" ++
          Excerpt.placeRows "a.carrot" p .red (trimEnd line) ++
          Excerpt.markBelow p .red (trimEnd line) (marked = []) ++ behind) := by
  intro source p d
  have hne : source ≠ [] := by decide
  have hends : LineFeedsOnly source := by decide
  have ho : IsBoundary source 5 := ⟨source.take 4, List.take_prefix 4 source, by decide⟩
  have hlast : 5 < utf8Length source ∨ source.getLast? ≠ some '\n' := by decide
  have hp : d.position = some ((LineIndex.ofText source).position 5) := by decide +kernel
  have hposition : (LineIndex.ofText source).position 5 = p := by decide +kernel
  have hshows := excerpt_shows_place hne hends ho hlast hp "a.carrot"
  rw [hposition] at hshows
  exact ⟨⟨hne, hends, ho, hlast, hp⟩, hshows⟩

end Diagnostic

end NameCheck
