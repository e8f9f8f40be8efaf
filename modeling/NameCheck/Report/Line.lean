import NameCheck.Report.Diagnostic
import NameCheck.Text.Styled

/-!
# Diagnostics in one line

A diagnostic on a line of its own, with a line below it for each of its notes, in colours or
without.
-/

namespace NameCheck

open Text

namespace Severity

/-- How the word for a severity is shown in a line. -/
def lineStyle : Severity → Style
  | .fatal => .boldRed
  | .warning => .boldYellow

end Severity

namespace Diagnostic

/-- A note in a line of its own. -/
def noteLine (note : String) : Styled :=
  .bare "  " ++ .styled .boldBlue "=" ++ .bare " " ++ .styled .gray ("note: " ++ note)
    ++ .bare "\n"

/-- A diagnostic and its notes in their styles, a line for each. -/
def lines (d : Diagnostic) : Styled :=
  (match d.place with
    | some place => .styled .bold place ++ .bare " "
    | none => [])
    ++ .styled d.severity.lineStyle d.severity.name ++ .bare ": " ++ .styled .bold d.message
    ++ .bare "\n" ++ d.notes.flatMap noteLine

/-- A diagnostic and its notes without styles, a line for each. -/
def plainLines (d : Diagnostic) : String :=
  d.text ++ "\n" ++ String.join (d.notes.map fun note => "  = note: " ++ note ++ "\n")

/-- Writes a diagnostic and its notes, in colours or without. -/
def write (d : Diagnostic) (colors : Bool) : String :=
  if colors then d.lines.render true else d.plainLines

end Diagnostic

end NameCheck
