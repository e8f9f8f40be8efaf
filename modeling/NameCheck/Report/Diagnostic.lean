import NameCheck.Source.Position

/-!
# Diagnostics

A diagnostic is a message of some severity, perhaps at a position, with notes that add to it.
-/

namespace NameCheck

/-- How grave a diagnostic is: a fatal one makes the program illegal, a warning does not. -/
inductive Severity where
  | fatal
  | warning
deriving DecidableEq, Repr

namespace Severity

/-- The word that stands before a message. -/
def name : Severity → String
  | .fatal => "error"
  | .warning => "warning"

end Severity

/-- One report about a text. -/
structure Diagnostic where
  severity : Severity
  message : String
  position : Option Position
  notes : List String
deriving DecidableEq, Repr

namespace Diagnostic

/-- A fatal diagnostic at a position. -/
def fatal (message : String) (position : Option Position) (notes : List String) : Diagnostic :=
  ⟨.fatal, message, position, notes⟩

/-- A warning at a position, without notes. -/
def warning (message : String) (position : Option Position) : Diagnostic :=
  ⟨.warning, message, position, []⟩

/-- Whether a diagnostic makes the program illegal. -/
def isFatal (d : Diagnostic) : Bool :=
  d.severity == .fatal

/-- The position of a diagnostic with the colon after it, if it has one. -/
def place (d : Diagnostic) : Option String :=
  d.position.map fun p => p.text ++ ":"

/-- A diagnostic in one line, without its notes. -/
def text (d : Diagnostic) : String :=
  (match d.place with
    | some place => place ++ " "
    | none => "") ++ d.severity.name ++ ": " ++ d.message

end Diagnostic

end NameCheck
