import NameCheck.Report.Diagnostic
import NameCheck.Token.Segment

/-!
# Tokenizing

The segments of a text are laid out over its positions.  The tokens among them become lexemes;
what is rejected is dropped and reported at the place where it begins.
-/

namespace NameCheck

namespace StringFault

/-- The words for a rejected string literal. -/
def message : StringFault → String
  | .badEscape => "string literal with bad escaped character ignored"
  | .unterminated => "unterminated string literal ignored"
  | .unterminatedBadEscape => "unterminated string literal with bad escaped character ignored"

end StringFault

namespace Segment

/-- What is reported about a segment that begins at `start`. -/
def diagnostic? (segment : Segment) (start : Position) : Option Diagnostic :=
  match segment.kind with
  | .hugeInt =>
    some (.warning "integer literal too large; using max value" start)
  | .rejected fault => some (.fatal fault.message start [])
  | .illegal =>
    some (.fatal ("illegal character ignored: " ++ String.ofList segment.text) start [])
  | _ => none

/-- Segments with the spans that they fill, when the first one begins at `start`. -/
def place : Position → List Segment → List (Segment × Span)
  | _, [] => []
  | start, segment :: rest =>
    let stop := start.after segment.text
    (segment, ⟨start, stop⟩) :: place stop rest

end Segment

/-- What a text yields: its lexemes, what was reported, and the place where it ends. -/
structure Tokens where
  lexemes : List Lexeme
  diagnostics : List Diagnostic
  finish : Position
deriving Repr

namespace Tokens

/-- The lexemes among placed segments. -/
def lexemesOf (placed : List (Segment × Span)) : List Lexeme :=
  placed.filterMap fun (segment, span) => segment.token?.map (⟨·, span⟩)

/-- The reports about placed segments. -/
def diagnosticsOf (placed : List (Segment × Span)) : List Diagnostic :=
  placed.filterMap fun (segment, span) => segment.diagnostic? span.start

/-- Tokenizes a text. -/
def ofText (text : List Char) : Tokens :=
  let placed := Segment.place .first (Segment.cut text)
  ⟨lexemesOf placed, diagnosticsOf placed, Position.first.after text⟩

/-- Tokenizes a string. -/
def ofString (source : String) : Tokens :=
  ofText source.toList

/-- The empty span at the end of the text. -/
def eoi (tokens : Tokens) : Span :=
  .empty tokens.finish

end Tokens

end NameCheck
