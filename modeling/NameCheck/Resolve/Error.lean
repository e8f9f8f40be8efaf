import NameCheck.Report.Diagnostic

/-!
# Semantic errors

The ways in which a program misuses names.  Each is fatal, and none stops the analysis.
-/

namespace NameCheck

/-- A misuse of a name, or of a dot, at a position. -/
inductive SemanticError where
  | multiplyDeclared (name : String) (pos : Position)
  | undeclared (name : String) (pos : Position)
  | dotAccessOfNonStruct (pos : Position)
  | invalidStructField (name : String) (pos : Position)
  | nonFunctionVoid (name : String) (pos : Position)
  | invalidStructTypeName (name : String) (pos : Position)
deriving DecidableEq, Repr

namespace SemanticError

/-- Where a misuse stands. -/
def pos : SemanticError → Position
  | .multiplyDeclared _ pos | .undeclared _ pos | .dotAccessOfNonStruct pos
  | .invalidStructField _ pos | .nonFunctionVoid _ pos | .invalidStructTypeName _ pos => pos

/-- The name that is misused. -/
def name? : SemanticError → Option String
  | .multiplyDeclared name _ | .undeclared name _ | .invalidStructField name _
  | .nonFunctionVoid name _ | .invalidStructTypeName name _ => some name
  | .dotAccessOfNonStruct _ => none

/-- The words for a misuse. -/
def message : SemanticError → String
  | .multiplyDeclared .. => "multiply declared identifier"
  | .undeclared .. => "undeclared identifier"
  | .dotAccessOfNonStruct _ => "dot-access of non-struct type"
  | .invalidStructField .. => "invalid struct field name"
  | .nonFunctionVoid .. => "non-function declared void"
  | .invalidStructTypeName .. => "invalid name of struct type"

/-- What is added about the name. -/
def notes : SemanticError → List String
  | .multiplyDeclared name _ => ["'" ++ name ++ "' is already declared in this scope"]
  | .undeclared name _ => ["'" ++ name ++ "' is not declared in any enclosing scope"]
  | .dotAccessOfNonStruct _ => []
  | .invalidStructField name _ => ["the struct has no field named '" ++ name ++ "'"]
  | .nonFunctionVoid name _ => ["'" ++ name ++ "' cannot have type void"]
  | .invalidStructTypeName name _ => ["'" ++ name ++ "' does not name a struct type"]

/-- The diagnostic of a misuse. -/
def diagnostic (error : SemanticError) : Diagnostic :=
  .fatal error.message error.pos error.notes

end SemanticError

end NameCheck
