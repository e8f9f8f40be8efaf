import NameCheck.Grammar.SyntaxError
import NameCheck.Report.Sink
import NameCheck.Resolve.Names
import NameCheck.Token.Tokenize

/-!
# Checking a text

Tokenizing, reading and name analysis in one.  What tokenizing reports does not stop the check;
a syntax error does, and takes the reports so far with it.
-/

namespace NameCheck

/-- Why a file cannot be read. -/
inductive ReadFailure where
  | notFound
  | isDirectory
  | notDirectory
  | notUtf8
  | other (reason : String)
deriving DecidableEq, Repr

namespace ReadFailure

/-- The words for a failure to read. -/
def message : ReadFailure → String
  | .notFound => "No such file or directory (os error 2)"
  | .isDirectory => "Is a directory (os error 21)"
  | .notDirectory => "Not a directory (os error 20)"
  | .notUtf8 => "stream did not contain valid UTF-8"
  | .other reason => reason

end ReadFailure

/-- Why a check does not come to its end. -/
inductive CheckError where
  | io (failure : ReadFailure)
  | syntaxErrors (diagnostics : List Diagnostic)
  | scope (error : ScopeError)
deriving DecidableEq, Repr

namespace CheckError

/-- The words for an error; syntax errors are counted together with the fatal reports before
them. -/
def message : CheckError → String
  | .io failure => "IO error: " ++ failure.message
  | .syntaxErrors diagnostics =>
    toString (diagnostics.countP Diagnostic.isFatal) ++ " syntax error(s)"
  | .scope error => "symbol table error: " ++ error.message

/-- What is reported about an error. -/
def diagnostics : CheckError → List Diagnostic
  | .io failure => [.fatal ("IO error: " ++ failure.message) none []]
  | .syntaxErrors diagnostics => diagnostics
  | .scope error => [.fatal ("internal error: " ++ error.message) none []]

/-- Reports an error to a sink. -/
def collect (error : CheckError) (sink : Sink) : Sink :=
  sink.extend error.diagnostics

end CheckError

/-- What a check finds: the program, what its names mean, and all that was reported. -/
structure Checked where
  program : Program
  analysis : Analysis
  sink : Sink

namespace Checked

/-- Whether anything fatal was reported. -/
def hasErrors (checked : Checked) : Bool :=
  checked.sink.hasErrors

end Checked

/-- Checks a text. -/
def check (source : String) : Except CheckError Checked := do
  let tokens := Tokens.ofString source
  let sink := Sink.empty.extend tokens.diagnostics
  let program ← (Program.parse tokens.lexemes tokens.eoi).mapError fun error =>
    .syntaxErrors (sink.diagnostics ++ [error.diagnostic])
  let analysis ← program.analyze.mapError .scope
  return ⟨program, analysis, sink.extend (analysis.errors.map SemanticError.diagnostic)⟩

/-- Checks the content of a file, if it could be read. -/
def checkFile (content : Except ReadFailure String) : Except CheckError Checked := do
  check (← content.mapError .io)

end NameCheck
