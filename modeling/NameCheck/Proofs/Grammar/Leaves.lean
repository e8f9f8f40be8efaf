import Mathlib.Data.List.Induction
import NameCheck.Proofs.Grammar.Exact

/-!
# The leaves of a program

The names and literals of a tree, from the left to the right.  They are those of the lexemes that
the tree was derived from: reading a program loses none, adds none and moves none.
-/

namespace NameCheck

/-- A name or a literal, and where it stands. -/
inductive Leaf where
  | name (id : Ident)
  | int (pos : Position) (value : Int)
  | str (pos : Position) (raw : String)
  | bool (pos : Position) (value : Bool)
deriving DecidableEq, Repr

/-- The name or literal that a lexeme is, if it is one. -/
def Lexeme.leaf? (lexeme : Lexeme) : Option Leaf :=
  match lexeme.token with
  | .name name => some (.name ⟨name, lexeme.span.start⟩)
  | .int value => some (.int lexeme.span.start value)
  | .str raw => some (.str lexeme.span.start raw)
  | .keyword .true_ => some (.bool lexeme.span.start true)
  | .keyword .false_ => some (.bool lexeme.span.start false)
  | _ => none

namespace Leaf

/-- Where a leaf stands. -/
def pos : Leaf → Position
  | .name id => id.pos
  | .int pos _ | .str pos _ | .bool pos _ => pos

/-- The occurrence of a name that a leaf is, if it is one. -/
def name? : Leaf → Option Ident
  | .name id => some id
  | _ => none

end Leaf

theorem Lexeme.pos_of_leaf? {lexeme : Lexeme} {leaf : Leaf} (h : lexeme.leaf? = some leaf) :
    leaf.pos = lexeme.span.start := by
  unfold leaf? at h
  split at h <;> cases h <;> rfl

/-! ## Leaves of trees -/

mutual

/-- The leaves of an expression. -/
def Expr.leaves : Expr → List Leaf
  | .int pos value => [.int pos value]
  | .str pos raw => [.str pos raw]
  | .bool pos value => [.bool pos value]
  | .id _ name => [.name name]
  | .dot _ base field => base.leaves ++ [.name field]
  | .assign _ lhs rhs | .binary _ _ lhs rhs => lhs.leaves ++ rhs.leaves
  | .call _ callee args => .name callee :: Expr.leavesAll args
  | .unary _ _ operand => operand.leaves

/-- The leaves of expressions in order. -/
def Expr.leavesAll : List Expr → List Leaf
  | [] => []
  | e :: es => e.leaves ++ Expr.leavesAll es

end

/-- The leaves of a type. -/
def TypeSpec.leaves (type : TypeSpec) : List Leaf :=
  type.structName?.toList.map .name

/-- The leaves of a declaration: its type, then its name. -/
def VarDecl.leaves (decl : VarDecl) : List Leaf :=
  decl.type.leaves ++ [.name decl.name]

mutual

/-- The leaves of a statement. -/
def Stmt.leaves : Stmt → List Leaf
  | .act _ e => e.leaves
  | .ifThen cond body | .loop _ cond body => cond.leaves ++ body.leaves
  | .ifElse cond thenBlock elseBlock => cond.leaves ++ (thenBlock.leaves ++ elseBlock.leaves)
  | .ret none => []
  | .ret (some e) => e.leaves

/-- The leaves of a block. -/
def Block.leaves : Block → List Leaf
  | .mk decls stmts => decls.flatMap VarDecl.leaves ++ Stmt.leavesAll stmts

/-- The leaves of statements in order. -/
def Stmt.leavesAll : List Stmt → List Leaf
  | [] => []
  | stmt :: stmts => stmt.leaves ++ Stmt.leavesAll stmts

end

/-- The leaves of a function. -/
def FnDecl.leaves (decl : FnDecl) : List Leaf :=
  decl.returns.leaves ++ (.name decl.name ::
    (decl.formals.flatMap VarDecl.leaves ++ decl.body.leaves))

/-- The leaves of a struct. -/
def StructDecl.leaves (decl : StructDecl) : List Leaf :=
  .name decl.name :: decl.fields.flatMap VarDecl.leaves

/-- The leaves of a declaration at the top. -/
def Decl.leaves : Decl → List Leaf
  | .var decl => decl.leaves
  | .fn decl => decl.leaves
  | .struct decl => decl.leaves

/-- The leaves of a program. -/
def Program.leaves (p : Program) : List Leaf :=
  p.decls.flatMap Decl.leaves

/-! ## Leaves of derivations -/

namespace Grammar

/-- The leaves of what is derived from a nonterminal. -/
def Nonterminal.leaves : (n : Nonterminal) → n.Tree → List Leaf
  | .program, p => p.leaves
  | .decl, d | .structDecl, d | .fnDecl, d => d.leaves
  | .varDecl, d | .formal, d => d.leaves
  | .type, t => t.leaves
  | .block, b => b.leaves
  | .stmt, s => s.leaves
  | .exp, e | .level _, e | .atom, e | .call, e | .loc, e => e.leaves
  | .dotName, id => [.name id]
  | .unaryOp, _ => []
  | .operation _, (_, e) => e.leaves
  | .many n, ts | .list n, ts => ts.flatMap n.leaves
  | .next n, t => n.leaves t

theorem leavesAll_exprs (es : List Expr) : Expr.leavesAll es = es.flatMap Expr.leaves := by
  induction es with
  | nil => rfl
  | cons e es ih => rw [Expr.leavesAll, ih, List.flatMap_cons]

theorem leavesAll_stmts (ss : List Stmt) : Stmt.leavesAll ss = ss.flatMap Stmt.leaves := by
  induction ss with
  | nil => rfl
  | cons st ss ih => rw [Stmt.leavesAll, ih, List.flatMap_cons]

theorem dots_concat (root : Ident) (fields : List Ident) (field : Ident) :
    dots root (fields ++ [field]) =
      .dot (dots root fields).pos (dots root fields) field := by
  rw [dots, List.foldl_append]
  rfl

/-- A location stands where its first name does. -/
theorem pos_dots (root : Ident) (fields : List Ident) : (dots root fields).pos = root.pos := by
  induction fields using List.reverseRecOn with
  | nil => rfl
  | append_singleton fields field ih => rw [dots_concat, Expr.pos, ih]

theorem leaves_dotsFrom (base : Expr) (fields : List Ident) :
    (fields.foldl (fun base field => Expr.dot base.pos base field) base).leaves =
      base.leaves ++ fields.map .name := by
  induction fields generalizing base with
  | nil => exact (List.append_nil _).symm
  | cons field fields ih => simp [ih, Expr.leaves]

theorem leaves_dots (root : Ident) (fields : List Ident) :
    (dots root fields).leaves = .name root :: fields.map .name :=
  leaves_dotsFrom (.id root.pos root) fields

theorem leaves_prefixed (ops : List UnaryOp) (operand : Expr) :
    (prefixed ops operand).leaves = operand.leaves := by
  induction ops with
  | nil => rfl
  | cons op ops ih => exact ih

theorem leaves_folded (first : Expr) (others : List (BinaryOp × Expr)) :
    (folded first others).leaves = first.leaves ++ others.flatMap fun other => other.2.leaves := by
  unfold folded
  induction others generalizing first with
  | nil => exact (List.append_nil _).symm
  | cons other others ih => simp [ih, Expr.leaves]

theorem leaves_fnDecl (head : VarDecl) (formals : List VarDecl) (body : Block) :
    (FnDecl.mk head.type head.name formals body).leaves =
      head.leaves ++ (formals.flatMap VarDecl.leaves ++ body.leaves) := by
  rw [FnDecl.leaves, VarDecl.leaves, List.append_assoc]
  rfl

@[simp]
theorem filterMap_leaf?_sign (m : Sign) (s : Span) (ts : List Lexeme) :
    (⟨.sign m, s⟩ :: ts).filterMap Lexeme.leaf? = ts.filterMap Lexeme.leaf? := rfl

@[simp]
theorem filterMap_leaf?_name (x : String) (s : Span) (ts : List Lexeme) :
    (⟨.name x, s⟩ :: ts).filterMap Lexeme.leaf? =
      .name ⟨x, s.start⟩ :: ts.filterMap Lexeme.leaf? := rfl

theorem leaf?_keyword {w : Keyword} (ht : w ≠ .true_) (hf : w ≠ .false_) (s : Span) :
    (⟨.keyword w, s⟩ : Lexeme).leaf? = none := by
  cases w with
  | true_ => exact absurd rfl ht
  | false_ => exact absurd rfl hf
  | _ => rfl

@[simp]
theorem filterMap_leaf?_keyword {w : Keyword} (ht : w ≠ .true_) (hf : w ≠ .false_) (s : Span)
    (ts : List Lexeme) :
    (⟨.keyword w, s⟩ :: ts).filterMap Lexeme.leaf? = ts.filterMap Lexeme.leaf? :=
  List.filterMap_cons_none (leaf?_keyword ht hf s)

theorem filterMap_leaf?_semicolon {ts : List Lexeme} (h : Optional (.sign .semicolon) ts) :
    ts.filterMap Lexeme.leaf? = [] := by
  rcases h with rfl | ⟨s, rfl⟩ <;> rfl

theorem filterMap_leaf?_struct {ts : List Lexeme} (h : Optional (.keyword .struct_) ts) :
    ts.filterMap Lexeme.leaf? = [] := by
  rcases h with rfl | ⟨s, rfl⟩ <;> rfl

theorem leaves_basicType {w : Keyword} {t : TypeSpec} (h : (w, t) ∈ basicTypes) :
    w ≠ .true_ ∧ w ≠ .false_ ∧ t.leaves = [] := by
  have hall : ∀ entry ∈ basicTypes,
      entry.1 ≠ .true_ ∧ entry.1 ≠ .false_ ∧ entry.2.leaves = [] := by decide
  exact hall _ h

theorem loopWord_not_literal {w : Keyword} {k : LoopKind} (h : (w, k) ∈ loopWords) :
    w ≠ .true_ ∧ w ≠ .false_ := by
  have hall : ∀ entry ∈ loopWords, entry.1 ≠ .true_ ∧ entry.1 ≠ .false_ := by decide
  exact hall _ h

theorem leaves_dotNames (fields : List Ident) :
    Nonterminal.leaves (.many .dotName) fields = fields.map .name := by
  induction fields with
  | nil => rfl
  | cons field fields ih => exact congrArg (Leaf.name field :: ·) ih

theorem leaves_unaryOps (ops : List UnaryOp) : Nonterminal.leaves (.many .unaryOp) ops = [] := by
  induction ops with
  | nil => rfl
  | cons op ops ih => exact ih

/-- A tree has the leaves of the lexemes that it is derived from, in their order. -/
theorem Derives.leaves {n : Nonterminal} {ts : List Lexeme} {t : n.Tree} (h : Derives n ts t) :
    ts.filterMap Lexeme.leaf? = n.leaves t := by
  induction h with
  | program _ ih => exact ih
  | declStruct _ ih | declFn _ ih | declVar _ ih => exact ih
  | structDecl _ hend ih =>
      have hend' := filterMap_leaf?_semicolon hend
      simp [ih, hend', Nonterminal.leaves, Decl.leaves, StructDecl.leaves]
  | varDecl _ ih => simp [ih, Nonterminal.leaves]
  | basicType h =>
      obtain ⟨ht, hf, hleaves⟩ := leaves_basicType h
      simp [ht, hf, hleaves, Nonterminal.leaves]
  | structType hstart =>
      have hstart' := filterMap_leaf?_struct hstart
      simp [hstart', Nonterminal.leaves, TypeSpec.leaves, TypeSpec.structName?]
  | fnDecl _ _ _ ihf ihfs ihb =>
      simp [ihf, ihfs, ihb, Nonterminal.leaves, Decl.leaves, leaves_fnDecl]
  | formal _ ih => simp [ih, Nonterminal.leaves, VarDecl.leaves]
  | block _ _ ihds ihss =>
      simp [ihds, ihss, Nonterminal.leaves, Block.leaves, leavesAll_stmts]
  | assignStmt _ _ ihl ihe => simp [ihl, ihe, Nonterminal.leaves, Stmt.leaves, Expr.leaves]
  | postStmt _ _ ih | preStmt _ _ ih | readStmt _ ih | writeStmt _ ih | callStmt _ ih
  | returnValue _ ih =>
      simp [ih, Nonterminal.leaves, Stmt.leaves]
  | ifThen _ _ ihe ihb => simp [ihe, ihb, Nonterminal.leaves, Stmt.leaves]
  | ifElse _ _ _ ihe ihb ihb' => simp [ihe, ihb, ihb', Nonterminal.leaves, Stmt.leaves]
  | loopStmt h _ _ ihe ihb =>
      obtain ⟨ht, hf⟩ := loopWord_not_literal h
      simp [ht, hf, ihe, ihb, Nonterminal.leaves, Stmt.leaves]
  | returnStmt => rfl
  | assign _ _ ihl ihe => simp [ihl, ihe, Nonterminal.leaves, Expr.leaves]
  | or _ ih => exact ih
  | level _ _ _ ihe ihos =>
      rw [List.filterMap_append, ihe, ihos]
      exact (leaves_folded _ _).symm
  | operation _ _ _ ih => exact ih
  | unary _ _ ihos ihe =>
      rw [List.filterMap_append, ihos, ihe, leaves_unaryOps]
      exact (leaves_prefixed _ _).symm
  | unaryOp _ => rfl
  | atomCall _ ih | atomLoc _ ih => exact ih
  | atomInt | atomStr | atomTrue | atomFalse => rfl
  | atomParen _ ih => simp [ih, Nonterminal.leaves]
  | call _ ih => simp [ih, Nonterminal.leaves, Expr.leaves, leavesAll_exprs]
  | loc _ ih =>
      rw [filterMap_leaf?_name, ih, leaves_dotNames]
      exact (leaves_dots _ _).symm
  | dotName => rfl
  | manyNil | listNil => rfl
  | manyCons _ _ ih ihs | listCons _ _ ih ihs =>
      rw [List.filterMap_append, ih, ihs]
      rfl
  | next _ ih => exact ih

end Grammar

/-- Reading a program conserves its names and literals. -/
theorem Program.leaves_of_parse {lexemes : List Lexeme} {eoi : Span} {p : Program}
    (h : parse lexemes eoi = .ok p) : lexemes.filterMap Lexeme.leaf? = p.leaves :=
  (parse_ok_iff_derives.mp h).leaves

end NameCheck
