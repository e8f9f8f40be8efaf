import NameCheck.Check
import NameCheck.CommandLine.Request
import NameCheck.Report.Excerpt

/-!
# Command line

Two commands: one checks a file, the other lists its tokens.  Diagnostics go to the error output
with excerpts from the file; the exit status is one when anything fatal was found, or when the
file cannot be read, and two when the command line makes no sense.
-/

namespace NameCheck.CommandLine

open Text

/-- What a run leaves: its exit status and what it wrote to either output. -/
structure Result where
  exit : Nat
  stdout : String
  stderr : String
deriving DecidableEq, Repr

namespace Ending

/-- How the program is used. -/
def usage : String :=
  "usage: [-v | --verbose] [--no-color] check FILE [--dump-symbols] | tokens FILE\n"

/-- The name of the program and its version. -/
def programVersion : String :=
  "carrotc 0.1.0\n"

/-- What a command line without a request leaves. -/
def result : Ending → Result
  | .help => ⟨0, usage, ""⟩
  | .version => ⟨0, programVersion, ""⟩
  | .misuse => ⟨2, "", usage⟩

end Ending

/-- What decides on the colour of the closing line of a check: three variables of the environment,
and whether the standard output is a terminal. -/
structure ColorSettings where
  force : Option String
  noColor : Option String
  preferred : Option String
  terminal : Bool
deriving DecidableEq, Repr

namespace ColorSettings

/-- Whether the closing line is coloured.  A variable counts as off when its value is zero;
forcing colours comes before forbidding them, and both before the terminal. -/
def enabled (settings : ColorSettings) : Bool :=
  match settings.force.map (· != "0"), settings.noColor with
  | some true, _ => true
  | _, some _ => false
  | _, none => (settings.preferred.map (· != "0")).getD true && settings.terminal

end ColorSettings

/-- Diagnostics with excerpts, one after the other. -/
def excerpts (request : Request) (source : String) (ds : List Diagnostic) : String :=
  String.join (ds.map fun d => d.writeWithSource (!request.noColor) request.file source.toList)

/-- A line in a style. -/
def styledLine (colors : Bool) (style : Style) (text : String) : String :=
  (Styled.styled style text).render colors ++ "\n"

/-- A run whose file could not be read. -/
def unreadable (request : Request) (failure : ReadFailure) : Result :=
  ⟨1, "", "Error: 无法读取 " ++ request.file ++ "\n\nCaused by:\n    " ++ failure.message ++ "\n"⟩

/-- Checks a file. -/
def runCheck (request : Request) (dumpSymbols colors : Bool) (source : String) : Result :=
  match check source with
  | .error error =>
    ⟨1, "",
      excerpts request source (error.collect .empty).diagnostics
        ++ styledLine colors .boldRed ("❌ " ++ error.message)⟩
  | .ok checked =>
    let dump := if dumpSymbols then checked.analysis.scopes.dump else ""
    let reports := excerpts request source checked.sink.diagnostics
    if checked.hasErrors then
      let counts := "❌ 发现 " ++ toString checked.sink.errorCount ++ " 个错误, "
        ++ toString checked.sink.warningCount ++ " 个警告"
      ⟨1, dump, reports ++ styledLine colors .boldRed counts⟩
    else
      ⟨0, dump ++ styledLine colors .green ("✅ " ++ request.file ++ " 无错误"), reports⟩

/-- Lists the tokens of a file, one in a line after its position. -/
def runTokens (request : Request) (source : String) : Result :=
  let tokens := Tokens.ofString source
  let sink := Sink.empty.extend tokens.diagnostics
  let list := tokens.lexemes.map fun lexeme =>
    lexeme.span.start.text ++ "\t" ++ lexeme.token.text ++ "\n"
  ⟨if sink.hasErrors then 1 else 0, String.join list, excerpts request source sink.diagnostics⟩

/-- Runs a request on the content of its file. -/
def run (request : Request) (settings : ColorSettings) (content : Except ReadFailure String) :
    Result :=
  match content with
  | .error failure => unreadable request failure
  | .ok source =>
    match request.command with
    | .check dumpSymbols =>
      runCheck request dumpSymbols (settings.enabled && !request.noColor) source
    | .tokens => runTokens request source

end NameCheck.CommandLine
