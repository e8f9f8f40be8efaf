import NameCheck.Grammar.Program
import NameCheck.Report.Diagnostic
import NameCheck.Text.Utf8

/-!
# Syntax errors

A syntax error says where reading failed, which token stood there, and which tokens would have
been accepted instead.  Its diagnostic lists the accepted ones in the order of their bytes, each
once, so that it does not depend on the order in which they were found.
-/

namespace NameCheck

/-- Why reading failed. -/
inductive SyntaxError.Reason where
  | unexpected
  | unclosed (delimiter : Token) (opened : Span)
  | custom (message : String)
deriving DecidableEq, Repr

/-- A failure to read a program.  In `found` and `expected`, `none` is the end of the input. -/
structure SyntaxError where
  reason : SyntaxError.Reason
  span : Span
  found : Option Token
  expected : List (Option Token)
deriving DecidableEq, Repr

namespace SyntaxError

/-- A token between back quotes, or the end of the input. -/
def describe : Option Token → String
  | some token => "`" ++ token.text ++ "`"
  | none => "end of input"

/-- Removes the repetitions that stand side by side. -/
def dropRepeats : List String → List String
  | [] => []
  | s :: rest =>
    match dropRepeats rest with
    | [] => [s]
    | t :: rest' => if s = t then t :: rest' else s :: t :: rest'

/-- The texts of the accepted tokens in the order of their bytes, each once. -/
def expectedTexts (expected : List (Option Token)) : List String :=
  dropRepeats ((expected.map describe).mergeSort Text.byteLe)

/-- The note on why reading failed. -/
def reasonNote (error : SyntaxError) : String :=
  match error.reason with
  | .unexpected => "unexpected " ++ describe error.found
  | .unclosed delimiter _ => "unclosed delimiter `" ++ delimiter.text ++ "`"
  | .custom message => message

/-- The note on what would have been accepted, if anything is known of it. -/
def expectedNotes (error : SyntaxError) : List String :=
  match expectedTexts error.expected with
  | [] => []
  | texts => ["expected one of " ++ ", ".intercalate texts]

/-- The diagnostic of a syntax error. -/
def diagnostic (error : SyntaxError) : Diagnostic :=
  .fatal "syntax error" error.span.start (error.reasonNote :: error.expectedNotes)

/-- The error for a miss while reading some lexemes, whose end is at `eoi`. -/
def ofMiss (lexemes : List Lexeme) (eoi : Span) (miss : Miss) : SyntaxError :=
  match lexemes[lexemes.length - miss.left]? with
  | some lexeme => ⟨.unexpected, lexeme.span, some lexeme.token, miss.expected⟩
  | none => ⟨.unexpected, eoi, none, miss.expected⟩

end SyntaxError

/-- Reads some lexemes, whose end is at `eoi`, with a parser. -/
def Parser.parse (p : Parser α) (lexemes : List Lexeme) (eoi : Span) : Except SyntaxError α :=
  (p.run lexemes).mapError (SyntaxError.ofMiss lexemes eoi)

namespace Program

/-- Reads a program. -/
def parse (lexemes : List Lexeme) (eoi : Span) : Except SyntaxError Program :=
  Grammar.program.parse lexemes eoi

end Program

end NameCheck
