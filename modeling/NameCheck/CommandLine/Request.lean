/-!
# Requests

What a command line asks for.  It names a command and then one file.  Options stand before the
command or after it, each at most once in either place; after two dashes every word is a file.
-/

namespace NameCheck.CommandLine

/-! ## Words -/

/-- The options. -/
inductive Flag where
  | verbose
  | noColor
  | dumpSymbols
  | help
  | version
deriving DecidableEq, Repr

namespace Flag

/-- The option that a word with two dashes names. -/
def ofWord? : String → Option Flag
  | "--verbose" => some .verbose
  | "--no-color" => some .noColor
  | "--dump-symbols" => some .dumpSymbols
  | "--help" => some .help
  | "--version" => some .version
  | _ => none

/-- The option that a letter after one dash names. -/
def ofLetter? : Char → Option Flag
  | 'v' => some .verbose
  | 'h' => some .help
  | 'V' => some .version
  | _ => none

end Flag

/-- What a word is, when no two dashes stood before it. -/
inductive Word where
  | plain (text : String)
  | flags (flags : List (Option Flag))
  | dashes
deriving DecidableEq, Repr

/-- Two dashes begin the name of one option, one dash a row of letters; one dash alone is a plain
word. -/
def Word.ofString (word : String) : Word :=
  match word.toList with
  | ['-', '-'] => .dashes
  | '-' :: '-' :: _ => .flags [Flag.ofWord? word]
  | '-' :: letter :: letters => .flags ((letter :: letters).map Flag.ofLetter?)
  | _ => .plain word

/-! ## Requests -/

/-- What is to be done with a file. -/
inductive Command where
  | check (dumpSymbols : Bool)
  | tokens
deriving DecidableEq, Repr

/-- A request: the command, the file, and whether diagnostics are coloured. -/
structure Request where
  command : Command
  file : String
  noColor : Bool
  verbose : Bool
deriving DecidableEq, Repr

/-- What a command line without a request comes to. -/
inductive Ending where
  | help
  | version
  | misuse
deriving DecidableEq, Repr

/-- The name of a command. -/
inductive Verb where
  | check
  | tokens
deriving DecidableEq, Repr

namespace Verb

/-- The command that a word names. -/
def ofWord? : String → Option Verb
  | "check" => some .check
  | "tokens" => some .tokens
  | _ => none

/-- The options that may follow a command. -/
def flags : Verb → List Flag
  | .check => [.verbose, .noColor, .help, .dumpSymbols]
  | .tokens => [.verbose, .noColor, .help]

/-- The command, with the options that follow it. -/
def command (raised : List Flag) : Verb → Command
  | .check => .check (raised.contains .dumpSymbols)
  | .tokens => .tokens

end Verb

/-- The options that may stand before the command. -/
def generalFlags : List Flag :=
  [.verbose, .noColor, .help, .version]

/-! ## Reading a command line -/

/-- Raises one more option, which must be allowed and not raised yet. -/
def raise (allowed raised : List Flag) : Option Flag → Except Ending (List Flag)
  | none => .error .misuse
  | some flag =>
    if !allowed.contains flag || raised.contains flag then .error .misuse
    else
      match flag with
      | .help => .error .help
      | .version => .error .version
      | flag => .ok (flag :: raised)

/-- Takes a word as the file, of which there is one; its name is not empty. -/
def takeFile (file? : Option String) (word : String) : Except Ending (Option String) :=
  if file?.isSome || word.isEmpty then .error .misuse else .ok (some word)

/-- Reads the words after a command: the options among them, and the file. -/
def readOperands (allowed raised : List Flag) (file? : Option String) :
    List String → Except Ending (List Flag × Option String)
  | [] => .ok (raised, file?)
  | word :: rest =>
    match Word.ofString word with
    | .plain text => do readOperands allowed raised (← takeFile file? text) rest
    | .flags flags => do readOperands allowed (← flags.foldlM (raise allowed) raised) file? rest
    | .dashes => do return (raised, ← rest.foldlM takeFile file?)

/-- What the word `help` comes to, given the words after it: at most one, and that a command. -/
def helpOn : List String → Ending
  | [] => .help
  | [word] => if (Verb.ofWord? word).isSome || word = "help" then .help else .misuse
  | _ => .misuse

namespace Request

/-- Reads a command line, when some options were raised before its first word. -/
def read (raised : List Flag) : List String → Except Ending Request
  | [] => .error .misuse
  | word :: rest =>
    match Word.ofString word with
    | .flags flags => do read (← flags.foldlM (raise generalFlags) raised) rest
    | .dashes => .error .misuse
    | .plain text =>
      match Verb.ofWord? text with
      | some verb => do
        match ← readOperands verb.flags [] none rest with
        | (own, some file) =>
          let all := own ++ raised
          return ⟨verb.command own, file, all.contains .noColor, all.contains .verbose⟩
        | (_, none) => .error .misuse
      | none => .error (if text = "help" then helpOn rest else .misuse)

/-- The request that a command line makes. -/
def ofArgs (args : List String) : Except Ending Request :=
  read [] args

end Request

end NameCheck.CommandLine
