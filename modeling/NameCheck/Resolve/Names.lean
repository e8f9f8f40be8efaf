import NameCheck.Resolve.Analysis

/-!
# Name analysis

Walks a program once.  Declarations are entered into the innermost scope, uses are looked up from
the inside to the outside, and fields in the field table of the instance that they are selected
from.  Right operands come before left ones, arguments before the function that they are passed
to, conditions before their blocks.
-/

namespace NameCheck.Resolve

/-! ## Expressions -/

/-- The meaning of a use of a name. -/
def useName (id : Ident) : Resolve Symbol := do
  let symbol ← foundOr (.undeclared id.name id.pos) (← lookup id.name)
  record id.pos symbol
  return symbol

/-- Looks a field up in the field table of an instance, if it has one. -/
def lookupField (base : Symbol) (name : String) : Resolve (Option Symbol) :=
  match base.fields? with
  | some table => ofExcept (table.lookup name)
  | none => return none

/-- The meaning of a field of an expression that is reported at `pos` and means `base`. -/
def useField (pos : Position) (base : Symbol) (field : Ident) : Resolve Symbol := do
  match base.structName? with
  | none => foundOr (.dotAccessOfNonStruct pos) none
  | some _ =>
    let found ← lookupField base field.name
    let symbol ← foundOr (.invalidStructField field.name field.pos) found
    record field.pos symbol
    return symbol

mutual

/-- Analyses an expression; its symbol is that of the location it stands for, if any. -/
def expr : Expr → Resolve Symbol
  | .int .. | .str .. | .bool .. => pure .undefined
  | .id _ id => useName id
  | .dot _ base field => do
    let symbol ← expr base
    useField base.pos symbol field
  | .assign _ lhs rhs => do
    let _ ← expr rhs
    expr lhs
  | .call _ callee args => do
    exprs args
    useName callee
  | .unary _ _ operand => expr operand
  | .binary _ _ lhs rhs => do
    let _ ← expr rhs
    expr lhs

/-- Analyses expressions in order. -/
def exprs : List Expr → Resolve Unit
  | [] => pure ()
  | e :: es => do
    let _ ← expr e
    exprs es

end

/-! ## Variables, fields and formals -/

/-- The field table of the struct that a type names, or a report that it names none.  The inner
option is empty while the struct's own fields are read. -/
def structFields? (name : Ident) : Resolve (Option (Option (ScopeStack Symbol))) := do
  match ← lookup name.name with
  | some (.structDecl fields) =>
    record name.pos (.structDecl fields)
    return some fields
  | _ =>
    report (.invalidStructTypeName name.name name.pos)
    return none

/-- The symbol of a name that is declared with a type, if the type can be found. -/
def symbol? (role : Role) (type : TypeSpec) : Resolve (Option Symbol) := do
  match type.structName? with
  | some name => return (← structFields? name).map (role.symbol type)
  | none => return some (role.symbol type none)

/-- Declares a variable or field in a table.  One named like a formal of the same scope is passed
over in silence. -/
def varDeclIn (table : ScopeStack Symbol) (decl : VarDecl) : Resolve (ScopeStack Symbol) := do
  if decl.type.isVoid then
    report (.nonFunctionVoid decl.name.name decl.name.pos)
    return table
  match ← ofExcept (table.lookupLocal decl.name.name) with
  | some (.param ..) => return table
  | _ =>
    match ← symbol? .variable decl.type with
    | some symbol => bindIn table decl.name symbol
    | none => return table

/-- Declares a variable in the innermost scope. -/
def varDecl (decl : VarDecl) : Resolve Unit :=
  onScopes (varDeclIn · decl)

/-- Declares a formal in the innermost scope. -/
def formal (decl : VarDecl) : Resolve Unit := do
  if decl.type.isVoid then
    report (.nonFunctionVoid decl.name.name decl.name.pos)
  else if let some symbol ← symbol? .formal decl.type then
    onScopes (bindIn · decl.name symbol)

/-! ## Statements and blocks -/

mutual

/-- Analyses a statement.  Each block in it has a scope of its own. -/
def stmt : Stmt → Resolve Unit
  | .act _ e => discard (expr e)
  | .ifThen cond body => do
    let _ ← expr cond
    inScope (block body)
  | .ifElse cond thenBlock elseBlock => do
    let _ ← expr cond
    inScope (block thenBlock)
    inScope (block elseBlock)
  | .loop _ cond body => do
    let _ ← expr cond
    inScope (block body)
  | .ret none => pure ()
  | .ret (some e) => discard (expr e)

/-- Analyses what a block holds, in the scope that is open. -/
def block : Block → Resolve Unit
  | .mk decls body => do
    decls.forM varDecl
    stmts body

/-- Analyses statements in order. -/
def stmts : List Stmt → Resolve Unit
  | [] => pure ()
  | s :: rest => do
    stmt s
    stmts rest

end

/-! ## Declarations and programs -/

/-- Declares a function.  Its formals and its body share a scope; they are analysed also when the
name is taken. -/
def fnDecl (decl : FnDecl) : Resolve Unit := do
  onScopes (bindIn · decl.name decl.symbol)
  inScope do
    decl.formals.forM formal
    block decl.body

/-- Attaches a field table to a struct of the innermost scope. -/
def attachFields (name : Ident) (table : ScopeStack Symbol) : Resolve Unit := do
  let scopes := (← state).scopes
  match ← ofExcept (scopes.lookupLocal name.name) with
  | some (.structDecl _) =>
    let symbol := .structDecl (some table)
    setScopes ((← ofExcept (scopes.replaceLocal name.name symbol)).getD scopes)
    record name.pos symbol
  | _ => return ()

/-- Declares a struct.  Its name is known while its fields are read, but its fields are not; when
the name is taken, they are not read at all. -/
def structDecl (decl : StructDecl) : Resolve Unit := do
  match ← declareIn (← state).scopes decl.name (.structDecl none) with
  | some scopes =>
    setScopes scopes
    attachFields decl.name (← decl.fields.foldlM varDeclIn .new)
  | none => return ()

/-- Analyses a declaration. -/
def decl : Decl → Resolve Unit
  | .var d => varDecl d
  | .fn d => fnDecl d
  | .struct d => structDecl d

/-- Analyses the declarations of a program in order. -/
def program (p : Program) : Resolve Unit :=
  p.decls.forM decl

end NameCheck.Resolve

namespace NameCheck.Program

/-- The analysis of a program on its own. -/
def analyze (p : Program) : Except ScopeError Analysis := do
  let (_, analysis) ← (Resolve.program p).run .new
  return analysis

end NameCheck.Program
