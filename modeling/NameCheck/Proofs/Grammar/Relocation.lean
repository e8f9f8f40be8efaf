import NameCheck.Tree

/-!
# Trees at other places

A tree with every position replaced.  Nothing else of it changes, so that two texts whose tokens
are the same can be compared by the trees that are read from them.
-/

namespace NameCheck

section Relocate

variable (f : Position → Position)

/-- The same name elsewhere. -/
def Ident.relocate (id : Ident) : Ident :=
  ⟨id.name, f id.pos⟩

/-- The same type elsewhere. -/
def TypeSpec.relocate : TypeSpec → TypeSpec
  | .int => .int
  | .bool => .bool
  | .void => .void
  | .struct name => .struct (name.relocate f)

/-- The same type and name elsewhere. -/
def VarDecl.relocate (decl : VarDecl) : VarDecl :=
  ⟨decl.type.relocate f, decl.name.relocate f⟩

mutual

/-- The same expression elsewhere. -/
def Expr.relocate : Expr → Expr
  | .int pos value => .int (f pos) value
  | .str pos raw => .str (f pos) raw
  | .bool pos value => .bool (f pos) value
  | .id pos name => .id (f pos) (name.relocate f)
  | .dot pos base field => .dot (f pos) base.relocate (field.relocate f)
  | .assign pos lhs rhs => .assign (f pos) lhs.relocate rhs.relocate
  | .call pos callee args => .call (f pos) (callee.relocate f) (Expr.relocateAll args)
  | .unary pos op operand => .unary (f pos) op operand.relocate
  | .binary pos op lhs rhs => .binary (f pos) op lhs.relocate rhs.relocate

/-- The same expressions elsewhere. -/
def Expr.relocateAll : List Expr → List Expr
  | [] => []
  | e :: es => e.relocate :: Expr.relocateAll es

end

mutual

/-- The same statement elsewhere. -/
def Stmt.relocate : Stmt → Stmt
  | .act action e => .act action (e.relocate f)
  | .ifThen cond body => .ifThen (cond.relocate f) body.relocate
  | .ifElse cond thenBlock elseBlock =>
    .ifElse (cond.relocate f) thenBlock.relocate elseBlock.relocate
  | .loop kind cond body => .loop kind (cond.relocate f) body.relocate
  | .ret value => .ret (value.map (Expr.relocate f))

/-- The same block elsewhere. -/
def Block.relocate : Block → Block
  | .mk decls stmts => .mk (decls.map (VarDecl.relocate f)) (Stmt.relocateAll stmts)

/-- The same statements elsewhere. -/
def Stmt.relocateAll : List Stmt → List Stmt
  | [] => []
  | stmt :: stmts => stmt.relocate :: Stmt.relocateAll stmts

end

/-- The same function elsewhere. -/
def FnDecl.relocate (decl : FnDecl) : FnDecl :=
  ⟨decl.returns.relocate f, decl.name.relocate f, decl.formals.map (VarDecl.relocate f),
    decl.body.relocate f⟩

/-- The same struct elsewhere. -/
def StructDecl.relocate (decl : StructDecl) : StructDecl :=
  ⟨decl.name.relocate f, decl.fields.map (VarDecl.relocate f)⟩

/-- The same declaration elsewhere. -/
def Decl.relocate : Decl → Decl
  | .var decl => .var (decl.relocate f)
  | .fn decl => .fn (decl.relocate f)
  | .struct decl => .struct (decl.relocate f)

/-- The same program elsewhere. -/
def Program.relocate (p : Program) : Program :=
  ⟨p.decls.map (Decl.relocate f)⟩

end Relocate

variable {f : Position → Position}

@[simp]
theorem Ident.name_relocate (id : Ident) : (id.relocate f).name = id.name := rfl

@[simp]
theorem Ident.pos_relocate (id : Ident) : (id.relocate f).pos = f id.pos := rfl

@[simp]
theorem VarDecl.type_relocate (decl : VarDecl) :
    (decl.relocate f).type = decl.type.relocate f := rfl

@[simp]
theorem Expr.pos_relocate (e : Expr) : (e.relocate f).pos = f e.pos := by
  cases e <;> rfl

theorem Expr.relocateAll_eq_map (es : List Expr) :
    Expr.relocateAll f es = es.map (Expr.relocate f) := by
  induction es with
  | nil => rfl
  | cons e es ih => rw [Expr.relocateAll, ih, List.map_cons]

theorem Stmt.relocateAll_eq_map (stmts : List Stmt) :
    Stmt.relocateAll f stmts = stmts.map (Stmt.relocate f) := by
  induction stmts with
  | nil => rfl
  | cons stmt stmts ih => rw [Stmt.relocateAll, ih, List.map_cons]

end NameCheck
