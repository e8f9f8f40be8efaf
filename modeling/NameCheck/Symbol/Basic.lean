import NameCheck.Scope.Stack
import NameCheck.Symbol.Ty

/-!
# Symbols

What names stand for.  A variable or formal whose type is a struct carries the field table that
the struct had where it was declared; later declarations of the same name do not change it.  A
field table is a scope stack of its own.
-/

namespace NameCheck

/-- The meaning of a name.  A struct has no field table while its own fields are read;
`undefined` stands in where no meaning was found. -/
inductive Symbol where
  | var (type : Ty) (fields : Option (ScopeStack Symbol))
  | fn (returns : Ty) (formals : List Symbol)
  | param (type : Ty) (fields : Option (ScopeStack Symbol))
  | structVar (struct : String) (fields : Option (ScopeStack Symbol))
  | structDecl (fields : Option (ScopeStack Symbol))
  | undefined
deriving Inhabited

namespace Symbol

/-- The kind of thing that a symbol is, in words. -/
def category : Symbol → String
  | .var .. => "normal"
  | .fn .. => "function"
  | .param .. => "formal"
  | .structVar .. => "struct variable"
  | .structDecl _ => "struct declaration"
  | .undefined => "undefined"

/-- The type of a symbol; that of a function is what it returns. -/
def ty : Symbol → Ty
  | .var type _ => type
  | .fn returns _ => returns
  | .param type _ => type
  | .structVar struct _ => .struct struct
  | .structDecl _ => .structDef
  | .undefined => .error

/-- How a symbol reads: its type, with the types of the formals before that of a function. -/
def text : Symbol → String
  | .fn returns formals => ",".intercalate (formals.map fun f => f.ty.text) ++ "->" ++ returns.text
  | .undefined => ""
  | symbol => symbol.ty.text

/-- The struct of which a symbol is an instance. -/
def structName? : Symbol → Option String
  | .structVar struct _ => some struct
  | .param type _ | .var type _ => type.structName?
  | _ => none

/-- The fields of an instance of a struct. -/
def fields? : Symbol → Option (ScopeStack Symbol)
  | .structVar _ fields | .param _ fields | .var _ fields => fields
  | _ => none

/-- Whether a symbol stands in for a meaning that was not found. -/
def isUndefined : Symbol → Bool
  | .undefined => true
  | _ => false

end Symbol

/-- What a type and a name declare: a variable or field, or a formal. -/
inductive Role where
  | variable
  | formal
deriving DecidableEq, Repr

namespace Role

/-- The symbol of a name that is declared with a type.  If the type is a struct, the symbol gets
the field table of the struct. -/
def symbol : Role → TypeSpec → Option (ScopeStack Symbol) → Symbol
  | .variable, .struct name, fields => .structVar name.name fields
  | .variable, type, fields => .var type.ty fields
  | .formal, type, fields => .param type.ty fields

end Role

/-- The symbol of a function: every formal that is written counts, also one that is rejected. -/
def FnDecl.symbol (decl : FnDecl) : Symbol :=
  .fn decl.returns.ty (decl.formals.map fun formal => .param formal.type.ty none)

namespace ScopeStack

/-- All scopes and the symbols in them, as text. -/
def dump (stack : ScopeStack Symbol) : String :=
  stack.dumpWith Symbol.text

end ScopeStack

end NameCheck
