import NameCheck.Report.Excerpt

/-!
# Colours say nothing

What is written in colours is what is written without them, and escape sequences in between.  A
diagnostic in lines is put together in two ways, in colours from pieces and without them from its
own text; an excerpt is put together once.  Where none of the texts that go into a diagnostic has
an escape character, the sequences can be told from the rest, and without them both forms are the
same.
-/

namespace NameCheck

namespace Text

/-! ## Escape sequences -/

/-- A text without its escape sequences, from inside of a sequence on or not.  A sequence begins
with an escape character and a bracket, and ends with the next letter `m`. -/
def strip : Bool → List Char → List Char
  | _, [] => []
  | true, c :: cs => strip (c ≠ 'm') cs
  | false, '\x1b' :: '[' :: cs => strip true cs
  | false, c :: cs => c :: strip false cs

/-- A text without its escape sequences. -/
def withoutSequences (text : List Char) : List Char :=
  strip false text

variable {c : Char} {cs text : List Char}

theorem strip_cons (h : c ≠ '\x1b') (cs : List Char) :
    strip false (c :: cs) = c :: strip false cs := by
  cases cs <;> simp [strip, h]

theorem strip_append (h : '\x1b' ∉ text) (rest : List Char) :
    strip false (text ++ rest) = text ++ strip false rest := by
  induction text with
  | nil => rfl
  | cons c cs ih =>
      obtain ⟨hc, hcs⟩ := List.ne_and_not_mem_of_not_mem_cons h
      rw [List.cons_append, strip_cons hc.symm, ih hcs, List.cons_append]

theorem strip_inside (h : 'm' ∉ text) (rest : List Char) :
    strip true (text ++ 'm' :: rest) = strip false rest := by
  induction text with
  | nil => rfl
  | cons c cs ih =>
      obtain ⟨hc, hcs⟩ := List.ne_and_not_mem_of_not_mem_cons h
      rw [List.cons_append, strip, decide_eq_true hc.symm, ih hcs]

theorem isDigit_of_mem_toString {n : Nat} (h : c ∈ (toString n).toList) : c.isDigit = true := by
  have hdigits : (toString n).toList = Nat.toDigits 10 n := Nat.toList_repr
  rw [hdigits] at h
  exact Nat.isDigit_of_mem_toDigits (by decide) (by decide) h

theorem escape_not_mem_toString (n : Nat) : '\x1b' ∉ (toString n).toList :=
  fun h => absurd (isDigit_of_mem_toString h) (by decide)

theorem escape_not_mem_replicate (h : c ≠ '\x1b') (n : Nat) : '\x1b' ∉ List.replicate n c :=
  fun hmem => h (List.eq_of_mem_replicate hmem).symm

theorem escape_not_mem_ofList_replicate (h : c ≠ '\x1b') (n : Nat) :
    '\x1b' ∉ (String.ofList (List.replicate n c)).toList := by
  rw [String.toList_ofList]
  exact escape_not_mem_replicate h n

theorem not_mem_toList_append {s t : String} :
    c ∉ (s ++ t).toList ↔ c ∉ s.toList ∧ c ∉ t.toList := by
  rw [String.toList_append, List.mem_append, not_or]

theorem not_mem_intercalate {sep : String} {texts : List String} (hsep : c ∉ sep.toList)
    (htexts : ∀ text ∈ texts, c ∉ text.toList) : c ∉ (sep.intercalate texts).toList := by
  rw [String.toList_intercalate]
  induction texts with
  | nil => exact List.not_mem_nil
  | cons text texts ih =>
      obtain ⟨htext, htexts⟩ := List.forall_mem_cons.mp htexts
      cases texts with
      | nil => rwa [List.map_singleton, List.intercalate_singleton]
      | cons other texts =>
          rw [List.map_cons, List.map_cons, List.intercalate_cons_cons, List.mem_append,
            List.mem_append, not_or, not_or]
          exact ⟨⟨htext, hsep⟩, ih htexts⟩

namespace Style

/-- What switches a style on is one sequence. -/
theorem strip_sequence (style : Style) (rest : List Char) :
    strip false (style.sequence ++ rest) = strip false rest := by
  have hcodes : 'm' ∉ (";".intercalate (style.codes.map toString)).toList := by
    apply not_mem_intercalate (by decide)
    intro text htext
    obtain ⟨n, -, rfl⟩ := List.mem_map.mp htext
    exact fun hm => absurd (isDigit_of_mem_toString hm) (by decide)
  change strip true ((";".intercalate (style.codes.map toString)).toList ++ ['m'] ++ rest) = _
  rw [List.append_assoc]
  exact strip_inside hcodes rest

theorem strip_reset (rest : List Char) : strip false (reset ++ rest) = strip false rest :=
  rfl

/-- Where there is no escape character, no style is reset. -/
theorem reopen_eq (style : Style) (h : '\x1b' ∉ text) : style.reopen text = text := by
  fun_induction reopen style text with
  | case1 cs ih => exact absurd List.mem_cons_self h
  | case2 c cs hreset ih => rw [ih (List.not_mem_of_not_mem_cons h)]
  | case3 => rfl

end Style

theorem Run.strip_ansi (run : Run) (h : '\x1b' ∉ run.text.toList) (rest : List Char) :
    strip false (run.ansi ++ rest) = run.text.toList ++ strip false rest := by
  obtain ⟨style, text⟩ := run
  cases style with
  | none => exact strip_append h rest
  | some style =>
      rw [ansi, List.append_assoc, List.append_assoc, style.strip_sequence, style.reopen_eq h,
        strip_append h, Style.strip_reset]

namespace Styled

/-- A styled text without sequences is the text alone. -/
theorem withoutSequences_ansi {text : Styled} (h : '\x1b' ∉ text.plain) :
    withoutSequences text.ansi = text.plain := by
  induction text with
  | nil => rfl
  | cons run text ih =>
      rw [plain, List.flatMap_cons, List.mem_append, not_or] at h
      rw [withoutSequences, ansi, List.flatMap_cons, run.strip_ansi h.1, plain, List.flatMap_cons]
      exact congrArg _ (ih h.2)

theorem withoutSequences_render {text : Styled} (h : '\x1b' ∉ text.plain) :
    withoutSequences (text.render true).toList = (text.render false).toList := by
  rw [render, render, String.toList_ofList, String.toList_ofList]
  exact withoutSequences_ansi h

/-! ## The text of styled text -/

@[simp]
theorem plain_append (text more : Styled) : plain (text ++ more) = plain text ++ plain more :=
  List.flatMap_append

@[simp]
theorem plain_bare (text : String) : plain (bare text) = text.toList :=
  List.append_nil _

@[simp]
theorem plain_styled (style : Style) (text : String) : plain (styled style text) = text.toList :=
  List.append_nil _

theorem not_mem_plain_append {c : Char} {text more : Styled} :
    c ∉ plain (text ++ more) ↔ c ∉ plain text ∧ c ∉ plain more := by
  rw [plain_append, List.mem_append, not_or]

theorem escape_not_mem_bare {text : String} (h : '\x1b' ∉ text.toList) :
    '\x1b' ∉ (bare text).plain := by
  rwa [plain_bare]

theorem escape_not_mem_styled {style : Style} {text : String} (h : '\x1b' ∉ text.toList) :
    '\x1b' ∉ (styled style text).plain := by
  rwa [plain_styled]

/-- A row that is put together from pieces without escape characters has none. -/
theorem escape_not_mem_flatMap {α : Type} {items : List α} {piece : α → Styled}
    (h : ∀ item ∈ items, '\x1b' ∉ (piece item).plain) : '\x1b' ∉ plain (items.flatMap piece) := by
  rw [plain, List.flatMap_assoc]
  intro hmem
  obtain ⟨item, hitem, hmem⟩ := List.mem_flatMap.mp hmem
  exact h item hitem hmem

end Styled

end Text

open Text

/-! ## Lines -/

namespace Diagnostic

variable {d : Diagnostic}

/-- Nothing that a diagnostic says has an escape character. -/
structure Unescaped (d : Diagnostic) : Prop where
  message : '\x1b' ∉ d.message.toList
  notes : ∀ note ∈ d.notes, '\x1b' ∉ note.toList

theorem plain_notes (notes : List String) :
    Styled.plain (notes.flatMap noteLine) =
      notes.flatMap fun note => ("  = note: " ++ note ++ "\n").toList := by
  induction notes with
  | nil => rfl
  | cons note notes ih =>
      rw [List.flatMap_cons, Styled.plain_append, ih, List.flatMap_cons]
      simp [noteLine]

/-- The two ways to put a diagnostic in lines together give the same text. -/
theorem plain_lines (d : Diagnostic) : d.lines.plain = d.plainLines.toList := by
  rw [lines, plainLines, String.toList_append, String.toList_join, List.flatMap_map,
    Styled.plain_append, plain_notes]
  cases hplace : d.place <;> simp [text, hplace]

theorem escape_not_mem_place {place : String} (h : d.place = some place) :
    '\x1b' ∉ place.toList := by
  obtain ⟨p, -, rfl⟩ := Option.map_eq_some_iff.mp h
  simp only [Position.text, not_mem_toList_append]
  exact ⟨⟨⟨escape_not_mem_toString _, by decide⟩, escape_not_mem_toString _⟩, by decide⟩

theorem Unescaped.text (h : d.Unescaped) : '\x1b' ∉ d.text.toList := by
  have hname : '\x1b' ∉ d.severity.name.toList := by
    cases d.severity <;> decide
  rw [Diagnostic.text, not_mem_toList_append, not_mem_toList_append, not_mem_toList_append]
  refine ⟨⟨⟨?_, hname⟩, by decide⟩, h.message⟩
  cases hplace : d.place with
  | none => decide
  | some place => exact not_mem_toList_append.mpr ⟨escape_not_mem_place hplace, by decide⟩

theorem Unescaped.plainLines (h : d.Unescaped) : '\x1b' ∉ d.plainLines.toList := by
  rw [Diagnostic.plainLines, not_mem_toList_append, not_mem_toList_append, String.toList_join,
    List.flatMap_map]
  refine ⟨⟨h.text, by decide⟩, fun hmem => ?_⟩
  obtain ⟨note, hnote, hmem⟩ := List.mem_flatMap.mp hmem
  have hline := not_mem_toList_append.mpr ⟨h.notes note hnote, (by decide : '\x1b' ∉ "\n".toList)⟩
  exact hline (by simpa using hmem)

/-- A diagnostic in lines says the same in colours and without. -/
theorem Unescaped.withoutSequences_write (h : d.Unescaped) :
    withoutSequences (d.write true).toList = (d.write false).toList := by
  have hlines : '\x1b' ∉ d.lines.plain := by
    rw [plain_lines]
    exact h.plainLines
  change withoutSequences (d.lines.render true).toList = d.plainLines.toList
  rw [Styled.withoutSequences_render hlines, Styled.render, String.toList_ofList]
  exact plain_lines d

end Diagnostic

/-! ## Excerpts -/

/-- The lines of a text as it is displayed make up the text. -/
theorem flatten_displayLines (text : List Char) : (displayLines text).flatten = text := by
  fun_induction displayLines text with
  | case1 => rfl
  | case2 cs ih => exact congrArg (['\r', '\n'] ++ ·) ih
  | case3 c cs hreturn hend ih => exact congrArg (c :: ·) ih
  | case4 c cs hreturn hend hlines ih =>
      rw [hlines] at ih
      exact congrArg (c :: ·) ih
  | case5 c cs hreturn hend line lines hlines ih =>
      rw [hlines] at ih
      exact congrArg (c :: ·) ih

theorem DisplayPlace.line_mem {offset : Nat} {lines : List (List Char)} {place : DisplayPlace}
    (h : find? offset lines = some place) : place.line ∈ lines := by
  induction lines generalizing offset place with
  | nil => cases h
  | cons line lines ih =>
      rw [find?] at h
      split at h
      · cases h
        exact List.mem_cons_self
      · obtain ⟨below, hbelow, hplace⟩ := Option.map_eq_some_iff.mp h
        have hline := ih hbelow
        rw [← hplace]
        exact List.mem_cons_of_mem _ hline

namespace Excerpt

variable {e : Excerpt} {mark : Style}

/-- What an excerpt shows comes from the text. -/
theorem mem_of_mem_shown {source : List Char} {p : Position} {c : Char}
    (h : find? source p = some e) (hc : c ∈ e.shown) : c ∈ source := by
  obtain ⟨place, hplace, rfl⟩ := Option.map_eq_some_iff.mp h
  have hline : c ∈ place.line := by
    rw [shown, trimEnd, List.mem_reverse] at hc
    exact List.mem_reverse.mp ((List.dropWhile_suffix isWhiteSpace).subset hc)
  rw [← flatten_displayLines source]
  exact List.mem_flatten.mpr ⟨place.line, DisplayPlace.line_mem hplace, hline⟩

theorem plain_drawn (style : Style) (cs : List Char) : (drawn style cs).plain = cs := by
  induction cs with
  | nil => rfl
  | cons c cs ih =>
      change c.toString.toList ++ (drawn style cs).plain = c :: cs
      rw [ih, Char.toString_eq_singleton, String.toList_singleton, List.singleton_append]

theorem escape_not_mem_cell {head tail : Char} (hhead : head ≠ '\x1b') (htail : tail ≠ '\x1b')
    (width : Nat) : '\x1b' ∉ cell width head tail := by
  intro hmem
  rcases List.mem_cons.mp (List.mem_of_mem_take hmem) with h | h
  · exact hhead h.symm
  · exact escape_not_mem_replicate htail width h

theorem escape_not_mem_glyphs {c : Char} (h : c ≠ '\x1b') (column : Nat) :
    '\x1b' ∉ glyphs column c := by
  rw [glyphs]
  split
  · exact escape_not_mem_replicate (by decide) _
  · exact List.not_mem_cons_of_ne_of_not_mem h.symm List.not_mem_nil

theorem escape_not_mem_lineRow (h : '\x1b' ∉ e.shown) : '\x1b' ∉ (e.lineRow mark).plain := by
  apply Styled.escape_not_mem_flatMap
  rintro ⟨c, column⟩ hmem
  have hc : c ≠ '\x1b' := by
    rintro rfl
    exact h (List.fst_mem_of_mem_zipIdx hmem)
  rw [plain_drawn]
  exact escape_not_mem_glyphs hc column

theorem escape_not_mem_blanks (n : Nat) : '\x1b' ∉ (blanks n).plain :=
  Styled.escape_not_mem_bare (escape_not_mem_ofList_replicate (by decide) n)

theorem escape_not_mem_drawn_cell {head tail : Char} (hhead : head ≠ '\x1b')
    (htail : tail ≠ '\x1b') (width : Nat) : '\x1b' ∉ (drawn mark (cell width head tail)).plain := by
  rw [plain_drawn]
  exact escape_not_mem_cell hhead htail width

theorem escape_not_mem_markRow : '\x1b' ∉ (e.markRow mark).plain := by
  apply Styled.escape_not_mem_flatMap
  rintro ⟨width, column⟩ -
  dsimp only
  split
  · split <;> exact escape_not_mem_drawn_cell (by decide) (by decide) width
  · exact escape_not_mem_blanks width

theorem escape_not_mem_arrowRow : '\x1b' ∉ (e.arrowRow mark).plain := by
  apply Styled.escape_not_mem_flatMap
  rintro ⟨width, column⟩ -
  dsimp only
  split
  · exact escape_not_mem_blanks width
  · split <;> exact escape_not_mem_drawn_cell (by decide) (by decide) width

end Excerpt

namespace Diagnostic

variable {d : Diagnostic} {e : Excerpt} {name : String} {source : List Char}

theorem Unescaped.noteRows (h : d.Unescaped) {bar : Styled} (hbar : '\x1b' ∉ bar.plain) :
    '\x1b' ∉ (d.noteRows bar).plain := by
  have hnotes : '\x1b' ∉ ("\n".intercalate d.notes).toList :=
    not_mem_intercalate (by decide) h.notes
  rw [Diagnostic.noteRows]
  split
  · exact List.not_mem_nil
  · simp only [Styled.not_mem_plain_append, Styled.plain_bare, Styled.plain_styled]
    exact ⟨⟨⟨⟨⟨⟨hbar, by decide⟩, hbar⟩, by decide⟩, by decide⟩, hnotes⟩, by decide⟩

theorem Unescaped.framed (h : d.Unescaped) (hname : '\x1b' ∉ name.toList)
    (hshown : '\x1b' ∉ e.shown) : '\x1b' ∉ (d.framed name e).plain := by
  unfold Diagnostic.framed
  -- The parts of the frame keep their names: written out, they would stand in every row again.
  extract_lets mark number margin indent spaces bar
  have hnumber : '\x1b' ∉ number.toList := escape_not_mem_toString _
  have hmargin {text : String} (htext : '\x1b' ∉ text.toList) : '\x1b' ∉ (margin text).plain :=
    Styled.escape_not_mem_styled htext
  have hindent : '\x1b' ∉ indent.plain := Excerpt.escape_not_mem_blanks _
  have hend : '\x1b' ∉ (Styled.bare "\n").plain := Styled.escape_not_mem_bare (by decide)
  have hblank : '\x1b' ∉ (Styled.bare " ").plain := Styled.escape_not_mem_bare (by decide)
  have hbar : '\x1b' ∉ bar.plain := by
    have hspaces : '\x1b' ∉ (spaces ++ "│").toList :=
      not_mem_toList_append.mpr ⟨escape_not_mem_ofList_replicate (by decide) _, by decide⟩
    simp only [bar, Styled.not_mem_plain_append]
    exact ⟨⟨hblank, Styled.escape_not_mem_styled hspaces⟩, hblank⟩
  have hplace : '\x1b' ∉ (name ++ ":" ++ number ++ ":" ++ toString e.columnNumber).toList := by
    simp only [not_mem_toList_append]
    exact ⟨⟨⟨⟨hname, by decide⟩, hnumber⟩, by decide⟩, escape_not_mem_toString _⟩
  have hlineNumber : '\x1b' ∉ (number ++ " │").toList :=
    not_mem_toList_append.mpr ⟨hnumber, by decide⟩
  have hmessage : '\x1b' ∉ (" " ++ d.message ++ "\n").toList := by
    simp only [not_mem_toList_append]
    exact ⟨⟨by decide, h.message⟩, by decide⟩
  have hbottom : '\x1b' ∉ (String.ofList (List.replicate (number.length + 2) '─') ++ "╯").toList :=
    not_mem_toList_append.mpr ⟨escape_not_mem_ofList_replicate (by decide) _, by decide⟩
  have hcorner : '\x1b' ∉ (margin "╭").plain := hmargin (by decide)
  have hrule : '\x1b' ∉ (margin "─").plain := hmargin (by decide)
  have hopen : '\x1b' ∉ (margin "[").plain := hmargin (by decide)
  have hclose : '\x1b' ∉ (margin "]").plain := hmargin (by decide)
  have hside : '\x1b' ∉ (margin "│").plain := hmargin (by decide)
  simp only [Styled.not_mem_plain_append, hindent, hcorner, hrule, hopen, hclose, hside, hend,
    hblank, hbar, Styled.escape_not_mem_bare hplace, hmargin hlineNumber,
    Styled.escape_not_mem_bare hmessage, hmargin hbottom, h.noteRows hbar,
    Excerpt.escape_not_mem_lineRow hshown, Excerpt.escape_not_mem_markRow,
    Excerpt.escape_not_mem_arrowRow, not_false_eq_true, and_self]

theorem Unescaped.withSource (h : d.Unescaped) (hname : '\x1b' ∉ name.toList)
    (hsource : '\x1b' ∉ source) : '\x1b' ∉ (d.withSource name source).plain := by
  rw [Diagnostic.withSource]
  cases d.position with
  | none =>
    rw [plain_lines]
    exact h.plainLines
  | some p =>
    have hheading : '\x1b' ∉ d.severity.heading.toList := by
      cases d.severity <;> decide
    simp only [Styled.not_mem_plain_append, Styled.plain_styled, Styled.plain_bare,
      not_mem_toList_append]
    refine ⟨⟨hheading, ⟨by decide, h.message⟩, by decide⟩, ?_⟩
    cases hfind : Excerpt.find? source p with
    | none => exact List.not_mem_nil
    | some e => exact h.framed hname fun hmem => hsource (Excerpt.mem_of_mem_shown hfind hmem)

/-- Colours carry no information.  If nothing that a diagnostic says has an escape character,
and neither has the text that it is about nor the name of this text, then what is written in colours
is, without its escape sequences, what is written without colours: in lines, and with an excerpt. -/
theorem colors_say_nothing (h : d.Unescaped) (hname : '\x1b' ∉ name.toList)
    (hsource : '\x1b' ∉ source) :
    withoutSequences (d.write true).toList = (d.write false).toList ∧
      withoutSequences (d.writeWithSource true name source).toList =
        (d.writeWithSource false name source).toList := by
  refine ⟨h.withoutSequences_write, ?_⟩
  have hexcerpt := Styled.withoutSequences_render (h.withSource hname hsource)
  rw [writeWithSource, writeWithSource]
  cases d.position with
  | none => exact h.withoutSequences_write
  | some p => exact hexcerpt

/-- A warning with two notes, one of them in two lines, about a wide character after a tab. -/
theorem colors_say_nothing_of_wide_character :
    let d : Diagnostic := ⟨.warning, "not a name", some ⟨1, 2⟩, ["a tab\nis four wide", "[0m"]⟩
    let source := "\t好 e\u0301;\n".toList
    (d.Unescaped ∧ '\x1b' ∉ "a.carrot".toList ∧ '\x1b' ∉ source) ∧
      withoutSequences (d.write true).toList = (d.write false).toList ∧
      withoutSequences (d.writeWithSource true "a.carrot" source).toList =
        (d.writeWithSource false "a.carrot" source).toList := by
  intro d source
  have h : d.Unescaped := ⟨by decide, by decide⟩
  have hname : '\x1b' ∉ "a.carrot".toList := by decide
  have hsource : '\x1b' ∉ source := by decide
  exact ⟨⟨h, hname, hsource⟩, colors_say_nothing h hname hsource⟩

end Diagnostic

end NameCheck
