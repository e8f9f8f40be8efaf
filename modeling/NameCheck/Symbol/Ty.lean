import NameCheck.Tree

/-!
# Types

The types of symbols.  Two types are the same when they are equal: there are no conversions.
-/

namespace NameCheck

/-- The type of a symbol; `struct` is the type of the instances of a struct, `structDef` that of
the struct itself, and `error` stands for a type that could not be found. -/
inductive Ty where
  | error
  | int
  | bool
  | void
  | string
  | function
  | struct (name : String)
  | structDef
deriving DecidableEq, Repr

namespace Ty

/-- How a type reads. -/
def text : Ty → String
  | .error => "error"
  | .int => "int"
  | .bool => "bool"
  | .void => "void"
  | .string => "String"
  | .function => "function"
  | .struct name => name
  | .structDef => "struct"

/-- The struct that a type is the instances of. -/
def structName? : Ty → Option String
  | .struct name => some name
  | _ => none

end Ty

namespace TypeSpec

/-- The type that a program writes. -/
def ty : TypeSpec → Ty
  | .int => .int
  | .bool => .bool
  | .void => .void
  | .struct name => .struct name.name

end TypeSpec

end NameCheck
