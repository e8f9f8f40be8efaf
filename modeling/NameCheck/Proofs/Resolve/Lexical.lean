import NameCheck.Resolve.Analysis

/-!
# Lexical scoping

Name resolution without a stack.  An environment is handed down the tree; what a block or a
function adds to it is seen inside only, because nothing hands it back.  Every occurrence of a
name is a site, visited in a fixed order: right operands before left ones, arguments before the
function, conditions before blocks, declarations before statements.
-/

namespace NameCheck

/-! ## Environments -/

/-- The declarations of the innermost scope, and those of the scopes around it from the inside to
the outside. -/
structure Env where
  inner : Frame Symbol
  outer : List (Frame Symbol)

/-- The innermost of some scopes that declares a name decides what it means. -/
def findIn (frames : List (Frame Symbol)) (name : String) : Option Symbol :=
  frames.findSome? (·.lookup name)

namespace Env

/-- All scopes, the innermost first. -/
def frames (env : Env) : List (Frame Symbol) :=
  env.inner :: env.outer

/-- The environment of the top of a program, before its first declaration. -/
def top : Env := ⟨.empty, []⟩

/-- The environment at the beginning of a scope inside. -/
def enter (env : Env) : Env := ⟨.empty, env.frames⟩

/-- The environment with another innermost scope. -/
def within (env : Env) (inner : Frame Symbol) : Env := ⟨inner, env.outer⟩

/-- The stack with the scopes of an environment. -/
def stack (env : Env) : ScopeStack Symbol := ⟨env.frames⟩

/-- What a name means. -/
def find (env : Env) (name : String) : Option Symbol :=
  findIn env.frames name

/-- The field table of the struct that a name means, if it means a struct. -/
def findStruct (env : Env) (name : String) : Option (Option (ScopeStack Symbol)) :=
  match env.find name with
  | some (.structDecl fields) => some fields
  | _ => none

end Env

/-- What a name means as a field of an instance. -/
def Symbol.member (base : Symbol) (name : String) : Option Symbol :=
  base.fields?.bind fun table => findIn table.frames name

/-! ## Sites -/

/-- What becomes of a declared name: it is bound, has type `void`, is named like a formal of the
same scope, is taken in its scope, or has a type that is not known. -/
inductive Verdict where
  | bound (symbol : Symbol)
  | void
  | hidden
  | taken
  | unknownType

/-- One occurrence of a name, with what it is found to be: a use, a field of a base that is
reported at a position, the name of a type, a declared name, or a name that is passed over. -/
inductive Site where
  | use (id : Ident) (found : Option Symbol)
  | member (basePos : Position) (base : Symbol) (field : Ident)
  | typeName (name : Ident) (found : Option (Option (ScopeStack Symbol)))
  | declared (name : Ident) (verdict : Verdict)
  | passedOver (name : Ident)

namespace Site

/-- The occurrence that a site is about. -/
def ident : Site → Ident
  | .use id _ => id
  | .member _ _ field => field
  | .typeName name _ | .declared name _ | .passedOver name => name

/-- What is reported at a site. -/
def errors : Site → List SemanticError
  | .use id none => [.undeclared id.name id.pos]
  | .member basePos base field =>
    match base.structName?, base.member field.name with
    | none, _ => [.dotAccessOfNonStruct basePos]
    | some _, none => [.invalidStructField field.name field.pos]
    | some _, some _ => []
  | .typeName name none => [.invalidStructTypeName name.name name.pos]
  | .declared name .void => [.nonFunctionVoid name.name name.pos]
  | .declared name .taken => [.multiplyDeclared name.name name.pos]
  | _ => []

/-- What is recorded at a site. -/
def meanings : Site → List (Position × Symbol)
  | .use id found => [(id.pos, found.getD .undefined)]
  | .member _ base field =>
    match base.structName? with
    | none => []
    | some _ => [(field.pos, (base.member field.name).getD .undefined)]
  | .typeName name (some fields) => [(name.pos, .structDecl fields)]
  | .declared name (.bound symbol) => [(name.pos, symbol)]
  | _ => []

end Site

/-! ## Expressions -/

namespace Expr

/-- What an expression stands for. -/
def meaning (env : Env) : Expr → Symbol
  | .int .. | .str .. | .bool .. => .undefined
  | .id _ name => (env.find name.name).getD .undefined
  | .dot _ base field =>
    match (base.meaning env).structName? with
    | none => .undefined
    | some _ => ((base.meaning env).member field.name).getD .undefined
  | .assign _ lhs _ | .binary _ _ lhs _ => lhs.meaning env
  | .call _ callee _ => (env.find callee.name).getD .undefined
  | .unary _ _ operand => operand.meaning env

mutual

/-- The sites of an expression. -/
def sites (env : Env) : Expr → List Site
  | .int .. | .str .. | .bool .. => []
  | .id _ name => [.use name (env.find name.name)]
  | .dot _ base field => base.sites env ++ [.member base.pos (base.meaning env) field]
  | .assign _ lhs rhs | .binary _ _ lhs rhs => rhs.sites env ++ lhs.sites env
  | .call _ callee args => sitesAll env args ++ [.use callee (env.find callee.name)]
  | .unary _ _ operand => operand.sites env

/-- The sites of expressions in order. -/
def sitesAll (env : Env) : List Expr → List Site
  | [] => []
  | e :: es => e.sites env ++ sitesAll env es

end

end Expr

/-! ## Declarations of names -/

namespace Verdict

/-- Whether a name with a symbol can be bound in a scope. -/
def ofSymbol (frame : Frame Symbol) (name : String) (symbol : Symbol) : Verdict :=
  match frame.lookup name with
  | none => .bound symbol
  | some _ => .taken

/-- The scope after a declaration. -/
def extend (frame : Frame Symbol) (name : String) : Verdict → Frame Symbol
  | .bound symbol => ⟨(name, symbol) :: frame.entries⟩
  | _ => frame

end Verdict

namespace TypeSpec

/-- The symbol of a name that is declared with a type, if the type is known. -/
def symbolIn (role : Role) (env : Env) (type : TypeSpec) : Option Symbol :=
  match type.structName? with
  | some name => (env.findStruct name.name).map (role.symbol type)
  | none => some (role.symbol type none)

/-- The site of a type that is looked up. -/
def sites (env : Env) : TypeSpec → List Site
  | .struct name => [.typeName name (env.findStruct name.name)]
  | _ => []

/-- The site of a type that is not looked up. -/
def passedOver : TypeSpec → List Site
  | .struct name => [.passedOver name]
  | _ => []

end TypeSpec

namespace VarDecl

/-- Whether a declaration is named like a formal of the scope. -/
def isHidden (frame : Frame Symbol) (decl : VarDecl) : Bool :=
  match frame.lookup decl.name.name with
  | some (.param ..) => true
  | _ => false

theorem isHidden_iff {frame : Frame Symbol} {decl : VarDecl} :
    decl.isHidden frame = true ↔
      ∃ type fields, frame.lookup decl.name.name = some (.param type fields) := by
  unfold isHidden
  split
  · rename_i type fields h
    exact ⟨fun _ => ⟨type, fields, h⟩, fun _ => rfl⟩
  · rename_i h
    constructor
    · intro h'
      cases h'
    · rintro ⟨type, fields, h'⟩
      exact absurd h' (h type fields)

/-- What becomes of a declaration whose type is looked up in `env` and whose name is entered into
`frame`, if there is nothing else against it. -/
def admission (role : Role) (env : Env) (frame : Frame Symbol) (decl : VarDecl) : Verdict :=
  match decl.type.symbolIn role env with
  | some symbol => .ofSymbol frame decl.name.name symbol
  | none => .unknownType

/-- What becomes of a declaration. -/
def verdict (role : Role) (env : Env) (frame : Frame Symbol) (decl : VarDecl) : Verdict :=
  if decl.type.isVoid then .void
  else if role = .variable ∧ decl.isHidden frame then .hidden
  else decl.admission role env frame

/-- The scope after a declaration. -/
def extend (role : Role) (env : Env) (frame : Frame Symbol) (decl : VarDecl) : Frame Symbol :=
  (decl.verdict role env frame).extend frame decl.name.name

/-- The sites of a declaration. -/
def sites (role : Role) (env : Env) (frame : Frame Symbol) (decl : VarDecl) : List Site :=
  match decl.verdict role env frame with
  | .hidden => decl.type.passedOver ++ [.declared decl.name .hidden]
  | verdict => decl.type.sites env ++ [.declared decl.name verdict]

/-- The scope after some declarations.  `envOf` is the environment of types when the scope has
come to hold a frame. -/
def extendAll (role : Role) (envOf : Frame Symbol → Env) :
    Frame Symbol → List VarDecl → Frame Symbol
  | frame, [] => frame
  | frame, decl :: decls =>
    extendAll role envOf (decl.extend role (envOf frame) frame) decls

/-- The sites of some declarations in order. -/
def sitesAll (role : Role) (envOf : Frame Symbol → Env) :
    Frame Symbol → List VarDecl → List Site
  | _, [] => []
  | frame, decl :: decls =>
    decl.sites role (envOf frame) frame ++
      sitesAll role envOf (decl.extend role (envOf frame) frame) decls

end VarDecl

/-! ## Statements and blocks -/

/-- The environment after declarations in the innermost scope. -/
def Env.declareAll (role : Role) (env : Env) (decls : List VarDecl) : Env :=
  env.within (VarDecl.extendAll role env.within env.inner decls)

mutual

/-- The sites of a statement. -/
def Stmt.sites (env : Env) : Stmt → List Site
  | .act _ e => e.sites env
  | .ifThen cond body => cond.sites env ++ body.sites env.enter
  | .ifElse cond thenBlock elseBlock =>
    cond.sites env ++ (thenBlock.sites env.enter ++ elseBlock.sites env.enter)
  | .loop _ cond body => cond.sites env ++ body.sites env.enter
  | .ret none => []
  | .ret (some e) => e.sites env

/-- The sites of a block at whose beginning an environment holds. -/
def Block.sites (env : Env) : Block → List Site
  | .mk decls stmts =>
    VarDecl.sitesAll .variable env.within env.inner decls ++
      Stmt.sitesAll (env.declareAll .variable decls) stmts

/-- The sites of statements in order. -/
def Stmt.sitesAll (env : Env) : List Stmt → List Site
  | [] => []
  | stmt :: stmts => stmt.sites env ++ Stmt.sitesAll env stmts

end

/-! ## Declarations and programs -/

namespace FnDecl

/-- What becomes of the name of a function. -/
def verdict (env : Env) (decl : FnDecl) : Verdict :=
  .ofSymbol env.inner decl.name.name decl.symbol

/-- The environment after a function: its name is added, and nothing from its body. -/
def env (env : Env) (decl : FnDecl) : Env :=
  env.within ((decl.verdict env).extend env.inner decl.name.name)

/-- The environment at the beginning of the body of a function: its formals are added in a scope
of their own. -/
def inside (env : Env) (decl : FnDecl) : Env :=
  (decl.env env).enter.declareAll .formal decl.formals

/-- The sites of a function.  Its name is known in its body, and its return type is not looked
up. -/
def sites (env : Env) (decl : FnDecl) : List Site :=
  decl.returns.passedOver ++ (.declared decl.name (decl.verdict env) ::
    (VarDecl.sitesAll .formal (decl.env env).enter.within .empty decl.formals ++
      decl.body.sites (decl.inside env)))

end FnDecl

namespace StructDecl

/-- The environment in which a struct has a field table, or none yet. -/
def withFields (env : Env) (decl : StructDecl) (fields : Option (ScopeStack Symbol)) : Env :=
  env.within ⟨(decl.name.name, .structDecl fields) :: env.inner.entries⟩

/-- The field table of a struct.  The types of its fields are looked up where its name is known
but its fields are not. -/
def table (env : Env) (decl : StructDecl) : ScopeStack Symbol :=
  .ofFrame (VarDecl.extendAll .variable (fun _ => decl.withFields env none) .empty decl.fields)

/-- The environment after a struct. -/
def env (env : Env) (decl : StructDecl) : Env :=
  match env.inner.lookup decl.name.name with
  | none => decl.withFields env (decl.table env)
  | some _ => env

/-- The sites of a struct.  If its name is taken, its fields are passed over. -/
def sites (env : Env) (decl : StructDecl) : List Site :=
  match env.inner.lookup decl.name.name with
  | none =>
    VarDecl.sitesAll .variable (fun _ => decl.withFields env none) .empty decl.fields ++
      [.declared decl.name (.bound (.structDecl (decl.table env)))]
  | some _ =>
    .declared decl.name .taken ::
      decl.fields.flatMap fun field => field.type.passedOver ++ [.passedOver field.name]

end StructDecl

namespace Decl

/-- The environment after a declaration. -/
def env (env : Env) : Decl → Env
  | .var decl => env.declareAll .variable [decl]
  | .fn decl => decl.env env
  | .struct decl => decl.env env

/-- The sites of a declaration. -/
def sites (env : Env) : Decl → List Site
  | .var decl => decl.sites .variable env env.inner
  | .fn decl => decl.sites env
  | .struct decl => decl.sites env

/-- The sites of declarations in order. -/
def sitesAll : Env → List Decl → List Site
  | _, [] => []
  | env, decl :: decls => decl.sites env ++ sitesAll (decl.env env) decls

end Decl

namespace Program

/-- The environment after the declarations of a program. -/
def env (p : Program) : Env :=
  p.decls.foldl Decl.env .top

/-- The sites of a program. -/
def sites (p : Program) : List Site :=
  Decl.sitesAll .top p.decls

end Program

/-- The state after some sites, with the scopes of an environment. -/
def Analysis.add (s : Analysis) (sites : List Site) (env : Env) : Analysis where
  scopes := env.stack
  errors := s.errors ++ sites.flatMap Site.errors
  resolutions := (sites.flatMap Site.meanings).foldl (fun table entry =>
    table.record entry.1 entry.2) s.resolutions

/-- What lexical scoping finds out about a program. -/
def Program.lexical (p : Program) : Analysis :=
  Analysis.new.add p.sites p.env

end NameCheck
