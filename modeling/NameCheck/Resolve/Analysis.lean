import NameCheck.Resolve.Error
import NameCheck.Resolve.Resolutions
import NameCheck.Tree

/-!
# Name analysis: state and steps

What an analysis knows at some point of a program, and the steps that change it.  A misuse of a
name is reported and the analysis goes on; only a misuse of the scope stack would stop it.
-/

namespace NameCheck

/-- The open scopes, the misuses found so far in order, and the meanings found so far. -/
structure Analysis where
  scopes : ScopeStack Symbol
  errors : List SemanticError
  resolutions : Resolutions

namespace Analysis

/-- The state before anything was analysed: the global scope is open. -/
def new : Analysis := ⟨.new, [], .empty⟩

/-- Whether a misuse was found. -/
def hasErrors (analysis : Analysis) : Bool :=
  !analysis.errors.isEmpty

end Analysis

/-- Steps of an analysis.  They end with a value or are stopped; before that they look at the
state and change it. -/
inductive Resolve (α : Type) where
  | done (a : α)
  | stop (error : ScopeError)
  | look (next : Analysis → Resolve α)
  | change (f : Analysis → Analysis) (next : Resolve α)

namespace Resolve

variable {α β : Type}

/-- One thing after another. -/
protected def bind : Resolve α → (α → Resolve β) → Resolve β
  | .done a, k => k a
  | .stop error, _ => .stop error
  | .look next, k => .look fun s => (next s).bind k
  | .change f next, k => .change f (next.bind k)

instance : Monad Resolve where
  pure := .done
  bind := Resolve.bind

/-- Goes on with steps that are stopped at their end in any case. -/
def thenStop (error : ScopeError) : Resolve α → Resolve β
  | .done _ | .stop _ => .stop error
  | .look next => .look fun s => (next s).thenStop error
  | .change f next => .change f (next.thenStop error)

/-- Takes a last step whether or not the steps before it were stopped.  If they were, their error
stands. -/
def ensuring : Resolve α → Resolve Unit → Resolve α
  | .done a, last => last.bind fun _ => .done a
  | .stop error, last => last.thenStop error
  | .look next, last => .look fun s => (next s).ensuring last
  | .change f next, last => .change f (next.ensuring last)

/-! ## Runs -/

/-- What steps come to from a state, and the state that they leave. -/
def exec : Resolve α → Analysis → Except ScopeError α × Analysis
  | .done a, s => (.ok a, s)
  | .stop error, s => (.error error, s)
  | .look next, s => (next s).exec s
  | .change f next, s => next.exec (f s)

/-- The states that steps pass through, the first and the last included. -/
def trail : Resolve α → Analysis → List Analysis
  | .done _, s | .stop _, s => [s]
  | .look next, s => (next s).trail s
  | .change f next, s => s :: next.trail (f s)

/-- What steps come to from a state: a value with the state that they leave, or an error. -/
def run (step : Resolve α) (s : Analysis) : Except ScopeError (α × Analysis) :=
  match step.exec s with
  | (.ok a, s) => .ok (a, s)
  | (.error error, _) => .error error

/-! ## Single steps -/

/-- The state as it is. -/
def state : Resolve Analysis := .look .done

/-- Changes the state. -/
def update (f : Analysis → Analysis) : Resolve Unit := .change f (.done ())

/-- A value, or a stop. -/
def ofExcept : Except ScopeError α → Resolve α
  | .ok a => .done a
  | .error error => .stop error

/-- Reports a misuse. -/
def report (error : SemanticError) : Resolve Unit :=
  update fun s => { s with errors := s.errors ++ [error] }

/-- Records what the occurrence at a position means. -/
def record (pos : Position) (symbol : Symbol) : Resolve Unit :=
  update fun s => { s with resolutions := s.resolutions.record pos symbol }

/-- Puts a changed stack in place. -/
def setScopes (scopes : ScopeStack Symbol) : Resolve Unit :=
  update fun s => { s with scopes }

/-- Changes the stack by steps that work on a table. -/
def onScopes (step : ScopeStack Symbol → Resolve (ScopeStack Symbol)) : Resolve Unit := do
  setScopes (← step (← state).scopes)

/-- Looks a name up in all open scopes. -/
def lookup (name : String) : Resolve (Option Symbol) := do
  ofExcept ((← state).scopes.lookup name)

/-- Runs steps in a scope of their own, which is closed after them in any case. -/
def inScope (step : Resolve Unit) : Resolve Unit := do
  setScopes (← state).scopes.push
  ensuring step (onScopes fun scopes => ofExcept scopes.pop)

/-- Declares a name in the innermost scope of a table: the table after it, or none and a report
when the name is taken there. -/
def declareIn (table : ScopeStack Symbol) (name : Ident) (symbol : Symbol) :
    Resolve (Option (ScopeStack Symbol)) :=
  match table.declare name.name symbol with
  | .ok table => return some table
  | .error (.duplicate _) => do
    report (.multiplyDeclared name.name name.pos)
    return none
  | .error error => .stop error

/-- Declares a name in the innermost scope of a table, and records what it means if it was not
taken there. -/
def bindIn (table : ScopeStack Symbol) (name : Ident) (symbol : Symbol) :
    Resolve (ScopeStack Symbol) := do
  match ← declareIn table name symbol with
  | some table =>
    record name.pos symbol
    return table
  | none => return table

/-- The meaning that was found; without one, a report. -/
def foundOr (error : SemanticError) : Option Symbol → Resolve Symbol
  | some symbol => pure symbol
  | none => do
    report error
    return .undefined

end Resolve

end NameCheck
