import NameCheck.Source.Position

/-!
# Syntax trees

The trees that programs are read into.  An identifier is one occurrence of a name, and its
position tells it from the other occurrences.  Every expression carries the position at which
it is reported.
-/

namespace NameCheck

/-- One occurrence of a name. -/
structure Ident where
  name : String
  pos : Position
deriving DecidableEq, Repr

/-- A type as a program writes it. -/
inductive TypeSpec where
  | int
  | bool
  | void
  | struct (name : Ident)
deriving DecidableEq, Repr

namespace TypeSpec

/-- Whether a type is `void`. -/
def isVoid : TypeSpec → Bool
  | .void => true
  | _ => false

/-- The struct that a type names. -/
def structName? : TypeSpec → Option Ident
  | .struct name => some name
  | _ => none

/-- How a type reads. -/
def text : TypeSpec → String
  | .int => "int"
  | .bool => "bool"
  | .void => "void"
  | .struct name => name.name

end TypeSpec

/-- A type and a name: a variable, a field of a struct or a formal of a function. -/
structure VarDecl where
  type : TypeSpec
  name : Ident
deriving DecidableEq, Repr

/-- The operators with one operand. -/
inductive UnaryOp where
  | neg
  | not
deriving DecidableEq, Repr

/-- The operators with two operands. -/
inductive BinaryOp where
  | add | sub | mul | div | and | or | eq | neq | lt | gt | leq | geq
deriving DecidableEq, Repr

/-- Expressions.  A string keeps its quotes and escapes as written. -/
inductive Expr where
  | int (pos : Position) (value : Int)
  | str (pos : Position) (raw : String)
  | bool (pos : Position) (value : Bool)
  | id (pos : Position) (id : Ident)
  | dot (pos : Position) (base : Expr) (field : Ident)
  | assign (pos : Position) (lhs rhs : Expr)
  | call (pos : Position) (callee : Ident) (args : List Expr)
  | unary (pos : Position) (op : UnaryOp) (operand : Expr)
  | binary (pos : Position) (op : BinaryOp) (lhs rhs : Expr)
deriving Repr

namespace Expr

/-- Where an expression is reported. -/
def pos : Expr → Position
  | .int pos _ | .str pos _ | .bool pos _ | .id pos _ | .dot pos _ _ | .assign pos _ _
  | .call pos _ _ | .unary pos _ _ | .binary pos _ _ _ => pos

end Expr

/-- What a statement does with its one expression. -/
inductive Action where
  | assign | preInc | preDec | postInc | postDec | read | write | call
deriving DecidableEq, Repr

/-- The two kinds of loop. -/
inductive LoopKind where
  | whileLoop
  | repeatLoop
deriving DecidableEq, Repr

mutual

/-- Statements. -/
inductive Stmt where
  | act (action : Action) (expr : Expr)
  | ifThen (cond : Expr) (body : Block)
  | ifElse (cond : Expr) (thenBlock elseBlock : Block)
  | loop (kind : LoopKind) (cond : Expr) (body : Block)
  | ret (value : Option Expr)

/-- A block: declarations, and after them statements. -/
inductive Block where
  | mk (decls : List VarDecl) (stmts : List Stmt)

end

namespace Block

/-- The declarations of a block. -/
def decls : Block → List VarDecl
  | .mk decls _ => decls

/-- The statements of a block. -/
def stmts : Block → List Stmt
  | .mk _ stmts => stmts

end Block

/-- A function: what it returns, its name, its formals and its body. -/
structure FnDecl where
  returns : TypeSpec
  name : Ident
  formals : List VarDecl
  body : Block

/-- A struct: its name and its fields. -/
structure StructDecl where
  name : Ident
  fields : List VarDecl
deriving DecidableEq, Repr

/-- Declarations at the top of a program. -/
inductive Decl where
  | var (decl : VarDecl)
  | fn (decl : FnDecl)
  | struct (decl : StructDecl)

/-- A program is a list of declarations. -/
structure Program where
  decls : List Decl

end NameCheck
