import NameCheck.Source.Position
import NameCheck.Text.Utf8

/-!
# Line index

A line index keeps a text together with the byte offsets at which its lines start, and converts
between byte offsets and positions.  Both conversions are total: an offset past the end counts
as the end, an offset inside a character is given a column in bytes, and a position that the
text does not have is moved to the nearest place that the rule of `LineIndex.offset` finds.
-/

namespace NameCheck

open Text

/-- A text and the byte offsets of its lines. -/
structure LineIndex where
  text : List Char
  starts : List Nat
deriving Repr

namespace LineIndex

/-- The offsets after each line feed of a text that itself begins at an offset. -/
def startsAfter : Nat → List Char → List Nat
  | _, [] => []
  | offset, c :: cs =>
    let next := offset + c.utf8Size
    if c = '\n' then next :: startsAfter next cs else startsAfter next cs

/-- The index of a text. -/
def ofText (text : List Char) : LineIndex :=
  { text, starts := 0 :: startsAfter 0 text }

/-- The number of lines; a text that ends in a line feed has an empty last line. -/
def lineCount (index : LineIndex) : Nat :=
  index.starts.length

/-- The length of the text in bytes. -/
def size (index : LineIndex) : Nat :=
  utf8Length index.text

/-- The last line start that is not after an offset. -/
def lineStart (index : LineIndex) (offset : Nat) : Nat :=
  (index.starts.filter (· ≤ offset)).getLast?.getD 0

/-- The position of a byte offset.  Inside a character the column counts bytes instead. -/
def position (index : LineIndex) (offset : Nat) : Position :=
  let offset := min offset index.size
  let start := index.lineStart offset
  let column :=
    match takeBytes? (offset - start) (dropBytes start index.text) with
    | some before => before.length
    | none => offset - start
  ⟨index.starts.countP (· ≤ offset), column + 1⟩

/-- The byte offset of a position: the columns are counted from the start of its line and run on
into the lines below; all that lies beyond the text is its end. -/
def offset (index : LineIndex) (p : Position) : Nat :=
  match index.starts[p.line - 1]? with
  | some start => start + utf8Length ((dropBytes start index.text).take (p.column - 1))
  | none => index.size

end LineIndex

end NameCheck
