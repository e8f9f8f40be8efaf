import NameCheck.Report.Diagnostic

/-!
# Sinks

A sink collects diagnostics in the order in which they are reported.  It remembers whether a
fatal one was among them, so that this is known without looking through the collection.
-/

namespace NameCheck

/-- The diagnostics reported so far, the first one first. -/
structure Sink where
  diagnostics : List Diagnostic
  hasErrors : Bool
deriving DecidableEq, Repr

namespace Sink

/-- A sink to which nothing was reported. -/
def empty : Sink := ⟨[], false⟩

/-- Reports one diagnostic. -/
def add (sink : Sink) (d : Diagnostic) : Sink :=
  ⟨sink.diagnostics ++ [d], sink.hasErrors || d.isFatal⟩

/-- Reports diagnostics in order. -/
def extend (sink : Sink) (ds : List Diagnostic) : Sink :=
  ds.foldl add sink

/-- The number of diagnostics. -/
def size (sink : Sink) : Nat :=
  sink.diagnostics.length

/-- The number of fatal diagnostics. -/
def errorCount (sink : Sink) : Nat :=
  sink.diagnostics.countP Diagnostic.isFatal

/-- The number of warnings. -/
def warningCount (sink : Sink) : Nat :=
  sink.diagnostics.countP fun d => d.severity == .warning

/-- The messages in order. -/
def messages (sink : Sink) : List String :=
  sink.diagnostics.map Diagnostic.message

@[simp]
theorem diagnostics_add (sink : Sink) (d : Diagnostic) :
    (sink.add d).diagnostics = sink.diagnostics ++ [d] := rfl

@[simp]
theorem diagnostics_extend (sink : Sink) (ds : List Diagnostic) :
    (sink.extend ds).diagnostics = sink.diagnostics ++ ds := by
  induction ds generalizing sink with
  | nil => simp [extend]
  | cons d ds ih =>
    have h := ih (sink.add d)
    simpa [extend] using h

theorem hasErrors_extend (sink : Sink) (ds : List Diagnostic) :
    (sink.extend ds).hasErrors = (sink.hasErrors || ds.any Diagnostic.isFatal) := by
  induction ds generalizing sink with
  | nil => simp [extend]
  | cons d ds ih =>
    have h := ih (sink.add d)
    simpa [extend, add, Bool.or_assoc] using h

end Sink

end NameCheck
