import NameCheck.Scope.Frame

/-!
# Scope stacks

Nested scopes, as a stack of frames.  Names are declared in the innermost frame and looked up
from the inside to the outside.  Every operation but opening a scope needs a scope to work on;
an operation that fails changes nothing.
-/

namespace NameCheck

/-- Which arguments of a declaration are absent. -/
inductive MissingArgument where
  | both
  | name
  | symbol
deriving DecidableEq, Repr

namespace MissingArgument

/-- The words for the absent arguments. -/
def message : MissingArgument → String
  | .both => "id name and symbol are both absent"
  | .name => "id name is absent"
  | .symbol => "symbol is absent"

end MissingArgument

/-- Why an operation on a scope stack is refused. -/
inductive ScopeError where
  | noScopes
  | missing (argument : MissingArgument)
  | duplicate (name : String)
deriving DecidableEq, Repr

namespace ScopeError

/-- The words for a refusal. -/
def message : ScopeError → String
  | .noScopes => "symbol table has no scopes"
  | .missing argument => "wrong argument: " ++ argument.message
  | .duplicate name => "'" ++ name ++ "' is already declared in the innermost scope"

end ScopeError

/-- The open scopes, the innermost first. -/
structure ScopeStack (σ : Type) where
  frames : List (Frame σ)
deriving Repr

namespace ScopeStack

variable {σ : Type}

/-- A stack with one frame. -/
def ofFrame (frame : Frame σ) : ScopeStack σ := ⟨[frame]⟩

/-- A stack with one empty frame. -/
def new : ScopeStack σ := ofFrame .empty

/-- The number of open scopes. -/
def depth (stack : ScopeStack σ) : Nat :=
  stack.frames.length

/-- Opens a scope inside the others. -/
def push (stack : ScopeStack σ) : ScopeStack σ :=
  ⟨.empty :: stack.frames⟩

/-- Closes the innermost scope. -/
def pop (stack : ScopeStack σ) : Except ScopeError (ScopeStack σ) :=
  match stack.frames with
  | [] => .error .noScopes
  | _ :: outer => .ok ⟨outer⟩

/-- Binds a name in the innermost scope, given both or with an argument absent. -/
def add (stack : ScopeStack σ) (name : Option String) (symbol : Option σ) :
    Except ScopeError (ScopeStack σ) :=
  match stack.frames, name, symbol with
  | [], _, _ => .error .noScopes
  | _ :: _, none, none => .error (.missing .both)
  | _ :: _, none, some _ => .error (.missing .name)
  | _ :: _, some _, none => .error (.missing .symbol)
  | frame :: outer, some name, some symbol =>
    match frame.declare? name symbol with
    | some frame => .ok ⟨frame :: outer⟩
    | none => .error (.duplicate name)

/-- Binds a name in the innermost scope. -/
def declare (stack : ScopeStack σ) (name : String) (symbol : σ) :
    Except ScopeError (ScopeStack σ) :=
  stack.add name symbol

/-- Looks a name up in the innermost scope. -/
def lookupLocal (stack : ScopeStack σ) (name : String) : Except ScopeError (Option σ) :=
  match stack.frames with
  | [] => .error .noScopes
  | frame :: _ => .ok (frame.lookup name)

/-- Looks a name up in all scopes; the innermost one that binds it decides. -/
def lookup (stack : ScopeStack σ) (name : String) : Except ScopeError (Option σ) :=
  match stack.frames with
  | [] => .error .noScopes
  | frames => .ok (frames.findSome? (·.lookup name))

/-- Binds a name that the innermost scope binds to another symbol; none when it does not bind
it. -/
def replaceLocal (stack : ScopeStack σ) (name : String) (symbol : σ) :
    Except ScopeError (Option (ScopeStack σ)) :=
  match stack.frames with
  | [] => .error .noScopes
  | frame :: outer => .ok ((frame.replace? name symbol).map fun frame => ⟨frame :: outer⟩)

/-- All scopes below a heading, one in a line, the innermost first. -/
def dumpWith (text : σ → String) (stack : ScopeStack σ) : String :=
  "=== Sym Table ===\n" ++ String.join (stack.frames.map (Frame.dumpWith text))

/-! ## Opening and closing -/

@[simp]
theorem depth_new : (new : ScopeStack σ).depth = 1 := rfl

@[simp]
theorem depth_push (stack : ScopeStack σ) : stack.push.depth = stack.depth + 1 := rfl

/-- Closing a scope takes back its opening. -/
@[simp]
theorem pop_push (stack : ScopeStack σ) : stack.push.pop = .ok stack := rfl

end ScopeStack

end NameCheck
