import NameCheck.Proofs.Resolve.Lexical

/-!
# Other names

Trees, symbols and scopes with every name replaced.  Places stay as they are, and so do the types
that are no structs.  A symbol holds names itself: those of structs, and those that are bound in the
field table that it carries.
-/

namespace NameCheck

/-! ## Trees -/

section Trees

variable (r : String → String)

/-- The same occurrence of another name. -/
def Ident.rename (id : Ident) : Ident :=
  ⟨r id.name, id.pos⟩

/-- The same type with another name. -/
def TypeSpec.rename : TypeSpec → TypeSpec
  | .int => .int
  | .bool => .bool
  | .void => .void
  | .struct name => .struct (name.rename r)

/-- The same type and name under other names. -/
def VarDecl.rename (decl : VarDecl) : VarDecl :=
  ⟨decl.type.rename r, decl.name.rename r⟩

mutual

/-- The same expression with other names. -/
def Expr.rename : Expr → Expr
  | .int pos value => .int pos value
  | .str pos raw => .str pos raw
  | .bool pos value => .bool pos value
  | .id pos name => .id pos (name.rename r)
  | .dot pos base field => .dot pos base.rename (field.rename r)
  | .assign pos lhs rhs => .assign pos lhs.rename rhs.rename
  | .call pos callee args => .call pos (callee.rename r) (Expr.renameAll args)
  | .unary pos op operand => .unary pos op operand.rename
  | .binary pos op lhs rhs => .binary pos op lhs.rename rhs.rename

/-- The same expressions with other names. -/
def Expr.renameAll : List Expr → List Expr
  | [] => []
  | e :: es => e.rename :: Expr.renameAll es

end

mutual

/-- The same statement with other names. -/
def Stmt.rename : Stmt → Stmt
  | .act action e => .act action (e.rename r)
  | .ifThen cond body => .ifThen (cond.rename r) body.rename
  | .ifElse cond thenBlock elseBlock =>
    .ifElse (cond.rename r) thenBlock.rename elseBlock.rename
  | .loop kind cond body => .loop kind (cond.rename r) body.rename
  | .ret value => .ret (value.map (Expr.rename r))

/-- The same block with other names. -/
def Block.rename : Block → Block
  | .mk decls stmts => .mk (decls.map (VarDecl.rename r)) (Stmt.renameAll stmts)

/-- The same statements with other names. -/
def Stmt.renameAll : List Stmt → List Stmt
  | [] => []
  | stmt :: stmts => stmt.rename :: Stmt.renameAll stmts

end

/-- The same function with other names. -/
def FnDecl.rename (decl : FnDecl) : FnDecl :=
  ⟨decl.returns.rename r, decl.name.rename r, decl.formals.map (VarDecl.rename r),
    decl.body.rename r⟩

/-- The same struct with other names. -/
def StructDecl.rename (decl : StructDecl) : StructDecl :=
  ⟨decl.name.rename r, decl.fields.map (VarDecl.rename r)⟩

/-- The same declaration with other names. -/
def Decl.rename : Decl → Decl
  | .var decl => .var (decl.rename r)
  | .fn decl => .fn (decl.rename r)
  | .struct decl => .struct (decl.rename r)

/-- The same program with other names. -/
def Program.rename (p : Program) : Program :=
  ⟨p.decls.map (Decl.rename r)⟩

@[simp]
theorem Ident.name_rename (id : Ident) : (id.rename r).name = r id.name := rfl

@[simp]
theorem VarDecl.type_rename (decl : VarDecl) : (decl.rename r).type = decl.type.rename r := rfl

@[simp]
theorem VarDecl.name_rename (decl : VarDecl) : (decl.rename r).name = decl.name.rename r := rfl

@[simp]
theorem StructDecl.name_rename (decl : StructDecl) : (decl.rename r).name = decl.name.rename r :=
  rfl

@[simp]
theorem Expr.pos_rename (e : Expr) : (e.rename r).pos = e.pos := by
  cases e <;> rfl

end Trees

/-! ## Symbols and scopes -/

section Symbols

variable (r : String → String)

/-- The same type, with the struct that it may be under another name. -/
def Ty.rename : Ty → Ty
  | .struct name => .struct (r name)
  | type => type

mutual

/-- The same symbol, with the structs and fields that it knows of under other names. -/
def Symbol.rename : Symbol → Symbol
  | .var type fields => .var (type.rename r) (Symbol.renameTable fields)
  | .fn returns formals => .fn (returns.rename r) (Symbol.renameAll formals)
  | .param type fields => .param (type.rename r) (Symbol.renameTable fields)
  | .structVar struct fields => .structVar (r struct) (Symbol.renameTable fields)
  | .structDecl fields => .structDecl (Symbol.renameTable fields)
  | .undefined => .undefined

/-- The same symbols with other names. -/
def Symbol.renameAll : List Symbol → List Symbol
  | [] => []
  | symbol :: symbols => symbol.rename :: Symbol.renameAll symbols

/-- The same field table, if there is one, with other names. -/
def Symbol.renameTable : Option (ScopeStack Symbol) → Option (ScopeStack Symbol)
  | none => none
  | some table => some (ScopeStack.rename table)

/-- The same scopes with other names. -/
def ScopeStack.rename : ScopeStack Symbol → ScopeStack Symbol
  | ⟨frames⟩ => ⟨Frame.renameAll frames⟩

/-- The same frames with other names. -/
def Frame.renameAll : List (Frame Symbol) → List (Frame Symbol)
  | [] => []
  | frame :: frames => Frame.rename frame :: Frame.renameAll frames

/-- The same bindings with other names. -/
def Frame.rename : Frame Symbol → Frame Symbol
  | ⟨entries⟩ => ⟨Frame.renameEntries entries⟩

/-- The same names and symbols in order, with other names. -/
def Frame.renameEntries : List (String × Symbol) → List (String × Symbol)
  | [] => []
  | entry :: entries => Frame.renameEntry entry :: Frame.renameEntries entries

/-- The same symbol bound to another name. -/
def Frame.renameEntry : String × Symbol → String × Symbol
  | (name, symbol) => (r name, symbol.rename)

end

/-- The same environment with other names. -/
def Env.rename (env : Env) : Env :=
  ⟨env.inner.rename r, env.outer.map (Frame.rename r)⟩

end Symbols

/-! ## What is found -/

section Findings

variable (r : String → String)

/-- The same end of a declaration, with other names. -/
def Verdict.rename : Verdict → Verdict
  | .bound symbol => .bound (symbol.rename r)
  | verdict => verdict

/-- The same site with other names. -/
def Site.rename : Site → Site
  | .use id found => .use (id.rename r) (found.map (Symbol.rename r))
  | .member basePos base field => .member basePos (base.rename r) (field.rename r)
  | .typeName name found => .typeName (name.rename r) (found.map (Symbol.renameTable r))
  | .declared name verdict => .declared (name.rename r) (verdict.rename r)
  | .passedOver name => .passedOver (name.rename r)

/-- The same misuse of another name. -/
def SemanticError.rename : SemanticError → SemanticError
  | .multiplyDeclared name pos => .multiplyDeclared (r name) pos
  | .undeclared name pos => .undeclared (r name) pos
  | .dotAccessOfNonStruct pos => .dotAccessOfNonStruct pos
  | .invalidStructField name pos => .invalidStructField (r name) pos
  | .nonFunctionVoid name pos => .nonFunctionVoid (r name) pos
  | .invalidStructTypeName name pos => .invalidStructTypeName (r name) pos

/-- The meanings at the same places, with other names. -/
def Resolutions.rename (table : Resolutions) : Resolutions :=
  ⟨table.entries.map fun entry => (entry.1, entry.2.rename r)⟩

/-- The same analysis with other names. -/
def Analysis.rename (a : Analysis) : Analysis :=
  ⟨a.scopes.rename r, a.errors.map (SemanticError.rename r), a.resolutions.rename r⟩

end Findings

/-! ## Lookups -/

section Lookups

variable {r : String → String}

theorem Symbol.renameAll_eq_map (symbols : List Symbol) :
    renameAll r symbols = symbols.map (Symbol.rename r) := by
  induction symbols with
  | nil => rfl
  | cons symbol symbols ih => rw [renameAll, ih, List.map_cons]

theorem Frame.renameAll_eq_map (frames : List (Frame Symbol)) :
    renameAll r frames = frames.map (Frame.rename r) := by
  induction frames with
  | nil => rfl
  | cons frame frames ih => rw [renameAll, ih, List.map_cons]

@[simp]
theorem Ty.structName?_rename (type : Ty) :
    (type.rename r).structName? = type.structName?.map r := by
  cases type <;> rfl

@[simp]
theorem Symbol.structName?_rename (symbol : Symbol) :
    (symbol.rename r).structName? = symbol.structName?.map r := by
  cases symbol with
  | var type | param type => exact type.structName?_rename
  | _ => rfl

@[simp]
theorem Symbol.fields?_rename (symbol : Symbol) :
    (symbol.rename r).fields? = Symbol.renameTable r symbol.fields? := by
  cases symbol <;> rfl

theorem ScopeStack.frames_rename (stack : ScopeStack Symbol) :
    (stack.rename r).frames = stack.frames.map (Frame.rename r) := by
  obtain ⟨frames⟩ := stack
  exact Frame.renameAll_eq_map frames

@[simp]
theorem Env.inner_rename (env : Env) : (env.rename r).inner = env.inner.rename r := rfl

@[simp]
theorem Env.frames_rename (env : Env) :
    (env.rename r).frames = env.frames.map (Frame.rename r) := rfl

@[simp]
theorem Env.enter_rename (env : Env) : (env.rename r).enter = env.enter.rename r := rfl

@[simp]
theorem Env.within_rename (env : Env) (frame : Frame Symbol) :
    (env.rename r).within (frame.rename r) = (env.within frame).rename r := rfl

theorem Env.stack_rename (env : Env) : (env.rename r).stack = env.stack.rename r :=
  congrArg ScopeStack.mk (Frame.renameAll_eq_map env.frames).symm

variable (hr : Function.Injective r)
include hr

/-- Other names that are told apart as the names are find the same symbols, with other names. -/
theorem Frame.lookup_rename (frame : Frame Symbol) (name : String) :
    (frame.rename r).lookup (r name) = (frame.lookup name).map (Symbol.rename r) := by
  obtain ⟨entries⟩ := frame
  induction entries with
  | nil => rfl
  | cons entry entries ih =>
      rw [rename, renameEntries, renameEntry, lookup_cons, lookup_cons]
      simp only [hr.eq_iff]
      split
      · rfl
      · exact ih

theorem findIn_rename (frames : List (Frame Symbol)) (name : String) :
    findIn (frames.map (Frame.rename r)) (r name) = (findIn frames name).map (Symbol.rename r) := by
  induction frames with
  | nil => rfl
  | cons frame frames ih =>
      rw [findIn, List.map_cons, List.findSome?_cons, findIn, List.findSome?_cons,
        Frame.lookup_rename hr]
      cases frame.lookup name with
      | none => exact ih
      | some symbol => rfl

theorem Env.find_rename (env : Env) (name : String) :
    (env.rename r).find (r name) = (env.find name).map (Symbol.rename r) :=
  findIn_rename hr env.frames name

theorem Env.findStruct_rename (env : Env) (name : String) :
    (env.rename r).findStruct (r name) = (env.findStruct name).map (Symbol.renameTable r) := by
  rw [findStruct, findStruct, find_rename hr]
  cases env.find name with
  | none => rfl
  | some symbol => cases symbol <;> rfl

theorem Symbol.member_rename (base : Symbol) (name : String) :
    (base.rename r).member (r name) = (base.member name).map (Symbol.rename r) := by
  rw [member, member, fields?_rename]
  cases base.fields? with
  | none => rfl
  | some table =>
      change findIn (table.rename r).frames (r name) = (findIn table.frames name).map (rename r)
      rw [ScopeStack.frames_rename, findIn_rename hr]

end Lookups

end NameCheck
