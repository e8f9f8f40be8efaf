import NameCheck.Report.Line
import NameCheck.Source.LineIndex
import NameCheck.Text.Blank
import NameCheck.Text.Width

/-!
# Excerpts

A diagnostic together with the line that it is about, in which the character that it points to
is marked.  Lines are here split as a display splits them, at every Unicode line end.
-/

namespace NameCheck

open Text

/-! ## Lines as they are displayed -/

/-- Whether a character ends a line on a display. -/
def isLineEnd (c : Char) : Bool :=
  let n := c.toNat
  (0x0A ≤ n && n ≤ 0x0D) || n == 0x85 || n == 0x2028 || n == 0x2029

/-- The lines of a text, each with its end; a carriage return and a line feed are one end. -/
def displayLines : List Char → List (List Char)
  | [] => []
  | '\r' :: '\n' :: cs => ['\r', '\n'] :: displayLines cs
  | c :: cs =>
    if isLineEnd c then [c] :: displayLines cs
    else
      match displayLines cs with
      | [] => [[c]]
      | line :: lines => (c :: line) :: lines

/-- A place in a text as displayed: the number of lines above it, the number of characters before
it in its line, and the line. -/
structure DisplayPlace where
  above : Nat
  column : Nat
  line : List Char
deriving DecidableEq, Repr

/-- The place of a character, given by the number of characters before it; the end of the text
belongs to the last line. -/
def DisplayPlace.find? (offset : Nat) : List (List Char) → Option DisplayPlace
  | [] => none
  | line :: lines =>
    if offset < line.length || lines.isEmpty then some ⟨0, offset, line⟩
    else (find? (offset - line.length) lines).map fun p => { p with above := p.above + 1 }

/-! ## What an excerpt shows -/

/-- The marked character of an excerpt; the mark is empty at the end of the text. -/
structure Excerpt where
  place : DisplayPlace
  atEnd : Bool
deriving DecidableEq, Repr

namespace Excerpt

/-- The styles and widths of excerpts. -/
structure Format where
  margin : Style
  skipped : Style
  unmarked : Style
  note : Style
  tabWidth : Nat

/-- The margin is gray, and so is the text around the mark; a tab ends at the next multiple of
four characters. -/
def format : Format :=
  { margin := .palette 246, skipped := .palette 240, unmarked := .palette 249,
    note := .palette 115, tabWidth := 4 }

/-- The excerpt of a text at a position; none when the text is empty. -/
def find? (source : List Char) (p : Position) : Option Excerpt :=
  let index := LineIndex.ofText source
  let offset := index.offset p
  let before := (takeBytes? offset source).getD source
  (DisplayPlace.find? before.length (displayLines source)).map fun place =>
    { place, atEnd := index.size ≤ offset }

/-- The number of the line that an excerpt shows. -/
def lineNumber (e : Excerpt) : Nat :=
  e.place.above + 1

/-- The number of the column that an excerpt marks. -/
def columnNumber (e : Excerpt) : Nat :=
  e.place.column + 1

/-- The line that an excerpt shows, without the white space at its end. -/
def shown (e : Excerpt) : List Char :=
  trimEnd e.place.line

/-- How wide a character is shown that has `column` characters before it. -/
def cellWidth (column : Nat) (c : Char) : Nat :=
  if c = '\t' then (column / format.tabWidth + 1) * format.tabWidth - column
  else if isWhiteSpace c then 1
  else displayWidth c

/-- What is shown for a character: itself, or spaces for white space. -/
def glyphs (column : Nat) (c : Char) : List Char :=
  if isWhiteSpace c then List.replicate (cellWidth column c) ' ' else [c]

/-- The widths of the cells below the line, up to two beyond the mark. -/
def cellWidths (e : Excerpt) : List Nat :=
  let count := e.place.column + (if e.atEnd then 0 else 1) + 2
  (List.range count).map fun column =>
    match e.shown[column]? with
    | some c => cellWidth column c
    | none => 1

/-! ## Rows -/

/-- Characters that are styled one by one. -/
def drawn (style : Style) (cs : List Char) : Styled :=
  cs.map fun c => ⟨some style, c.toString⟩

/-- A cell that begins with one character and is filled with another. -/
def cell (width : Nat) (head tail : Char) : List Char :=
  (head :: List.replicate width tail).take width

/-- Spaces. -/
def blanks (n : Nat) : Styled :=
  .bare (String.ofList (List.replicate n ' '))

/-- The row with the line. -/
def lineRow (e : Excerpt) (mark : Style) : Styled :=
  e.shown.zipIdx.flatMap fun (c, column) =>
    let style := if column = e.place.column && !e.atEnd then mark else format.unmarked
    drawn style (glyphs column c)

/-- The row that marks a character. -/
def markRow (e : Excerpt) (mark : Style) : Styled :=
  e.cellWidths.zipIdx.flatMap fun (width, column) =>
    if column = e.place.column then
      if e.atEnd then drawn mark (cell width '│' ' ') else drawn mark (cell width '┬' '─')
    else blanks width

/-- The row that leads from the mark to the message. -/
def arrowRow (e : Excerpt) (mark : Style) : Styled :=
  e.cellWidths.zipIdx.flatMap fun (width, column) =>
    if column < e.place.column then blanks width
    else if column = e.place.column then drawn mark (cell width '╰' '─')
    else drawn mark (cell width '─' '─')

end Excerpt

/-! ## Diagnostics with excerpts -/

namespace Severity

/-- The word that heads an excerpt. -/
def heading : Severity → String
  | .fatal => "Error:"
  | .warning => "Warning:"

/-- How the heading and the mark are shown. -/
def markStyle : Severity → Style
  | .fatal => .red
  | .warning => .yellow

end Severity

namespace Diagnostic

/-- The rows of the notes. -/
def noteRows (d : Diagnostic) (bar : Styled) : Styled :=
  if d.notes.isEmpty then []
  else
    bar ++ .bare "\n" ++ bar ++ .styled Excerpt.format.note "Note" ++ .bare ": "
      ++ .bare ("\n".intercalate d.notes) ++ .bare "\n"

/-- The frame around an excerpt from the text called `name`, with the excerpt in it. -/
def framed (d : Diagnostic) (name : String) (e : Excerpt) : Styled :=
  let mark := d.severity.markStyle
  let number := toString e.lineNumber
  let margin := fun (text : String) => Styled.styled Excerpt.format.margin text
  let indent := Excerpt.blanks (number.length + 2)
  let spaces := String.ofList (List.replicate (number.length + 1) ' ')
  let bar := .bare " " ++ .styled Excerpt.format.skipped (spaces ++ "│") ++ .bare " "
  indent ++ margin "╭" ++ margin "─" ++ margin "["
    ++ .bare (name ++ ":" ++ number ++ ":" ++ toString e.columnNumber) ++ margin "]" ++ .bare "\n"
    ++ indent ++ margin "│" ++ .bare "\n"
    ++ .bare " " ++ margin (number ++ " │") ++ .bare " " ++ e.lineRow mark ++ .bare "\n"
    ++ bar ++ e.markRow mark ++ .bare "\n"
    ++ bar ++ e.arrowRow mark ++ .bare (" " ++ d.message ++ "\n")
    ++ d.noteRows bar
    ++ margin (String.ofList (List.replicate (number.length + 2) '─') ++ "╯") ++ .bare "\n"

/-- A diagnostic with an excerpt from the text called `name`.  One without a position is shown in
lines, and an empty text has no excerpt. -/
def withSource (d : Diagnostic) (name : String) (source : List Char) : Styled :=
  match d.position with
  | none => d.lines
  | some p =>
    .styled d.severity.markStyle d.severity.heading ++ .bare (" " ++ d.message ++ "\n")
      ++ (match Excerpt.find? source p with
        | some e => d.framed name e
        | none => [])

/-- Writes a diagnostic with an excerpt, or in lines if it has no position, in colours or
without. -/
def writeWithSource (d : Diagnostic) (colors : Bool) (name : String) (source : List Char) :
    String :=
  match d.position with
  | none => d.write colors
  | some _ => (d.withSource name source).render colors

end Diagnostic

end NameCheck
