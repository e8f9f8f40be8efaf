import NameCheck.Grammar.Expr

/-!
# Statements, declarations and programs

In a block all declarations come before the first statement.  A struct may be followed by a
semicolon; a type is a reserved word or the name of a struct, with or without `struct` before
it.
-/

namespace NameCheck.Grammar

open NameCheck.Parser

/-! ## Declarations of names -/

/-- One of the three types that are reserved words. -/
def basicType : Parser TypeSpec :=
  select fun lexeme =>
    match lexeme.token with
    | .keyword .int_ => some .int
    | .keyword .bool_ => some .bool
    | .keyword .void_ => some .void
    | _ => none

/-- The type that a struct names. -/
def structType : Parser TypeSpec := do
  let _ ← optional (keyword .struct_)
  let name ← ident
  return .struct name

/-- A type. -/
def typeSpec : Parser TypeSpec :=
  basicType <|> structType

/-- A type and a name, as a formal is written. -/
def formal : Parser VarDecl := do
  let type ← typeSpec
  let name ← ident
  return ⟨type, name⟩

/-- A type and a name with a semicolon, as a variable or a field is written. -/
def varDecl : Parser VarDecl := do
  let decl ← formal
  sign .semicolon
  return decl

/-! ## Statements -/

/-- An assignment with a semicolon. -/
def assignStmt : Parser Stmt := do
  let expr ← assignment expr
  sign .semicolon
  return .act .assign expr

/-- A location with a sign and a semicolon after it. -/
def postStmt (s : Sign) (action : Action) : Parser Stmt := do
  let loc ← location
  sign s
  sign .semicolon
  return .act action loc

/-- A location with a sign before it and a semicolon after it. -/
def preStmt (s : Sign) (action : Action) : Parser Stmt := do
  sign s
  let loc ← location
  sign .semicolon
  return .act action loc

/-- Input into a location. -/
def readStmt : Parser Stmt := do
  keyword .cin_
  sign .read
  let loc ← location
  sign .semicolon
  return .act .read loc

/-- Output of an expression. -/
def writeStmt : Parser Stmt := do
  keyword .cout_
  sign .write
  let expr ← expr
  sign .semicolon
  return .act .write expr

/-- A condition in its brackets. -/
def condition : Parser Expr :=
  between .lparen .rparen expr

/-- A branch, with or without an alternative. -/
def ifStmt (block : Parser Block) : Parser Stmt := do
  keyword .if_
  let cond ← condition
  let thenBlock ← block
  let elseBlock? ← optional (do keyword .else_; block)
  return match elseBlock? with
    | some elseBlock => .ifElse cond thenBlock elseBlock
    | none => .ifThen cond thenBlock

/-- A loop, given by its reserved word. -/
def loopStmt (word : Keyword) (kind : LoopKind) (block : Parser Block) : Parser Stmt := do
  keyword word
  let cond ← condition
  let body ← block
  return .loop kind cond body

/-- A call with a semicolon. -/
def callStmt : Parser Stmt := do
  let expr ← call expr
  sign .semicolon
  return .act .call expr

/-- A return, with or without a value. -/
def returnStmt : Parser Stmt := do
  keyword .return_
  let value ← optional expr
  sign .semicolon
  return .ret value

/-- A statement whose inner blocks are read by `block`. -/
def stmtWith (block : Parser Block) : Parser Stmt :=
  assignStmt <|> postStmt .plusPlus .postInc <|> postStmt .minusMinus .postDec <|>
    preStmt .plusPlus .preInc <|> preStmt .minusMinus .preDec <|> readStmt <|> writeStmt <|>
    ifStmt block <|> loopStmt .while_ .whileLoop block <|>
    loopStmt .repeat_ .repeatLoop block <|> callStmt <|> returnStmt

/-- A block whose inner blocks are read by `block`. -/
def blockWith (block : Parser Block) : Parser Block :=
  between .lbrace .rbrace do
    let decls ← many varDecl
    let stmts ← many (stmtWith block)
    return .mk decls stmts

/-- A block. -/
def block : Parser Block := recursive blockWith

/-- A statement. -/
def stmt : Parser Stmt := stmtWith block

/-! ## Programs -/

/-- A struct, perhaps with a semicolon after it. -/
def structDecl : Parser Decl := do
  keyword .struct_
  let name ← ident
  let fields ← between .lbrace .rbrace (many varDecl)
  let _ ← optional (sign .semicolon)
  return .struct ⟨name, fields⟩

/-- A function. -/
def fnDecl : Parser Decl := do
  let ⟨returns, name⟩ ← formal
  let formals ← between .lparen .rparen (sepBy formal (sign .comma))
  let body ← block
  return .fn ⟨returns, name, formals, body⟩

/-- A variable at the top of a program. -/
def topVarDecl : Parser Decl := do
  let decl ← varDecl
  return .var decl

/-- A declaration at the top of a program. -/
def decl : Parser Decl :=
  structDecl <|> fnDecl <|> topVarDecl

/-- A program. -/
def program : Parser Program := whole do
  let decls ← many decl
  return ⟨decls⟩

end NameCheck.Grammar
