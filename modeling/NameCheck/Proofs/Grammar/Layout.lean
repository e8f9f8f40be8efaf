import NameCheck.Grammar.SyntaxError
import NameCheck.Proofs.Grammar.Moves

/-!
# Reading another layout

Every parser of the grammar reads the same tree from the same tokens, with the places where the
tokens begin, or it fails in the same way.
-/

namespace NameCheck.Grammar

open NameCheck.Parser

variable {f : Position → Position}

/-! ## Expressions -/

theorem moves_ident : Moves f (Ident.relocate f) ident ident := by
  apply moves_select
  intro a b hab
  rw [hab.token, hab.start]
  cases a.token <;> rfl

theorem relocate_dots (base : Expr) (fields : List Ident) :
    (fields.map (Ident.relocate f)).foldl (fun base field => .dot base.pos base field)
        (base.relocate f) =
      (fields.foldl (fun base field => Expr.dot base.pos base field) base).relocate f := by
  induction fields generalizing base with
  | nil => rfl
  | cons field fields ih =>
      rw [List.map_cons, List.foldl_cons, List.foldl_cons, ← ih, Expr.relocate, Expr.pos_relocate]

theorem moves_location : Moves f (Expr.relocate f) location location := by
  have hfield : Moves f (Ident.relocate f) (do sign .dot; ident) (do sign .dot; ident) :=
    (moves_sign .dot).bind fun _ => moves_ident
  exact moves_ident.bind fun root => hfield.many.map fun fields =>
    relocate_dots (.id root.pos root) fields

theorem moves_literal : Moves f (Expr.relocate f) literal literal := by
  apply moves_select
  intro a b hab
  rw [hab.token, hab.start]
  cases a.token with
  | keyword w => cases w <;> rfl
  | _ => rfl

theorem moves_operator {α : Type} (s : Sign) (op : α) :
    Moves f id (operator s op) (operator s op) :=
  (moves_sign s).map fun _ => rfl

theorem relocate_prefixed (ops : List UnaryOp) (operand : Expr) :
    ops.foldr (fun op operand => Expr.unary operand.pos op operand) (operand.relocate f) =
      (ops.foldr (fun op operand => Expr.unary operand.pos op operand) operand).relocate f := by
  induction ops with
  | nil => rfl
  | cons op ops ih =>
      rw [List.foldr_cons, List.foldr_cons, ih, Expr.relocate, Expr.pos_relocate]

/-- An operator and its right operand elsewhere. -/
def relocateOperation (f : Position → Position) (other : BinaryOp × Expr) : BinaryOp × Expr :=
  (other.1, other.2.relocate f)

theorem relocate_folded (first : Expr) (others : List (BinaryOp × Expr)) :
    (others.map (relocateOperation f)).foldl (fun lhs (op, rhs) => Expr.binary lhs.pos op lhs rhs)
        (first.relocate f) =
      (others.foldl (fun lhs (op, rhs) => Expr.binary lhs.pos op lhs rhs) first).relocate f := by
  induction others generalizing first with
  | nil => rfl
  | cons other others ih =>
      obtain ⟨op, rhs⟩ := other
      simp only [List.map_cons, List.foldl_cons, relocateOperation]
      rw [← ih, Expr.relocate, Expr.pos_relocate]

theorem moves_leftAssoc {operand : Parser Expr} {op : Parser BinaryOp}
    (h : Moves f (Expr.relocate f) operand operand) (hop : Moves f id op op) :
    Moves f (Expr.relocate f) (leftAssoc operand op) (leftAssoc operand op) := by
  have hother : Moves f (relocateOperation f)
      (do let op ← op; let rhs ← operand; return (op, rhs))
      (do let op ← op; let rhs ← operand; return (op, rhs)) :=
    hop.bind fun op => h.map fun rhs => rfl
  exact h.bind fun first => hother.many.map fun others => relocate_folded first others

section Expr

variable {expr : Parser Expr} (h : Moves f (Expr.relocate f) expr expr)
include h

theorem moves_call : Moves f (Expr.relocate f) (call expr) (call expr) := by
  refine moves_ident.bind fun callee => (h.sepBy (moves_sign .comma)).between.map fun args => ?_
  rw [Expr.relocate, Expr.relocateAll_eq_map]
  rfl

theorem moves_atom : Moves f (Expr.relocate f) (atom expr) (atom expr) :=
  (moves_call h).orElse (moves_literal.orElse (moves_location.orElse h.between))

theorem moves_unary : Moves f (Expr.relocate f) (unary expr) (unary expr) := by
  have hop : Moves f id (operator .minus UnaryOp.neg <|> operator .not UnaryOp.not)
      (operator .minus UnaryOp.neg <|> operator .not UnaryOp.not) :=
    (moves_operator .minus _).orElse (moves_operator .not _)
  have hops := hop.many
  rw [List.map_id_fun] at hops
  exact hops.bind fun ops => (moves_atom h).map fun operand => relocate_prefixed ops operand

theorem moves_product : Moves f (Expr.relocate f) (product expr) (product expr) :=
  moves_leftAssoc (moves_unary h) ((moves_operator .star _).orElse (moves_operator .slash _))

theorem moves_sum : Moves f (Expr.relocate f) (sum expr) (sum expr) :=
  moves_leftAssoc (moves_product h) ((moves_operator .plus _).orElse (moves_operator .minus _))

theorem moves_relation : Moves f (Expr.relocate f) (relation expr) (relation expr) := by
  apply moves_leftAssoc (moves_sum h)
  exact (moves_operator .eqEq _).orElse ((moves_operator .notEq _).orElse
    ((moves_operator .leq _).orElse ((moves_operator .geq _).orElse
      ((moves_operator .lt _).orElse (moves_operator .gt _)))))

theorem moves_disjunction : Moves f (Expr.relocate f) (disjunction expr) (disjunction expr) := by
  have hconjunction := moves_leftAssoc (moves_relation h) (moves_operator .and BinaryOp.and)
  exact moves_leftAssoc hconjunction (moves_operator .or _)

theorem moves_assignment : Moves f (Expr.relocate f) (assignment expr) (assignment expr) := by
  refine moves_location.bind fun lhs => (moves_sign .assign).bind fun _ => h.map fun rhs => ?_
  rw [Expr.relocate, Expr.pos_relocate]

theorem moves_exprWith : Moves f (Expr.relocate f) (exprWith expr) (exprWith expr) :=
  (moves_assignment h).orElse (moves_disjunction h)

end Expr

theorem moves_expr : Moves f (Expr.relocate f) expr expr :=
  moves_recursive fun _ => moves_exprWith

/-! ## Declarations of names -/

theorem moves_basicType : Moves f (TypeSpec.relocate f) basicType basicType := by
  apply moves_select
  intro a b hab
  rw [hab.token]
  cases a.token with
  | keyword w => cases w <;> rfl
  | _ => rfl

theorem moves_structType : Moves f (TypeSpec.relocate f) structType structType :=
  (moves_keyword .struct_).optional.bind fun _ => moves_ident.map fun _ => rfl

theorem moves_typeSpec : Moves f (TypeSpec.relocate f) typeSpec typeSpec :=
  moves_basicType.orElse moves_structType

theorem moves_formal : Moves f (VarDecl.relocate f) formal formal :=
  moves_typeSpec.bind fun _ => moves_ident.map fun _ => rfl

theorem moves_varDecl : Moves f (VarDecl.relocate f) varDecl varDecl :=
  moves_formal.bind fun _ => (moves_sign .semicolon).map fun _ => rfl

/-! ## Statements -/

theorem moves_assignStmt : Moves f (Stmt.relocate f) assignStmt assignStmt :=
  (moves_assignment moves_expr).bind fun _ => (moves_sign .semicolon).map fun _ => rfl

theorem moves_postStmt (s : Sign) (action : Action) :
    Moves f (Stmt.relocate f) (postStmt s action) (postStmt s action) :=
  moves_location.bind fun _ => (moves_sign s).bind fun _ => (moves_sign .semicolon).map fun _ => rfl

theorem moves_preStmt (s : Sign) (action : Action) :
    Moves f (Stmt.relocate f) (preStmt s action) (preStmt s action) :=
  (moves_sign s).bind fun _ => moves_location.bind fun _ => (moves_sign .semicolon).map fun _ => rfl

theorem moves_readStmt : Moves f (Stmt.relocate f) readStmt readStmt :=
  (moves_keyword .cin_).bind fun _ => (moves_sign .read).bind fun _ =>
    moves_location.bind fun _ => (moves_sign .semicolon).map fun _ => rfl

theorem moves_writeStmt : Moves f (Stmt.relocate f) writeStmt writeStmt :=
  (moves_keyword .cout_).bind fun _ => (moves_sign .write).bind fun _ =>
    moves_expr.bind fun _ => (moves_sign .semicolon).map fun _ => rfl

theorem moves_condition : Moves f (Expr.relocate f) condition condition :=
  moves_expr.between

theorem moves_callStmt : Moves f (Stmt.relocate f) callStmt callStmt :=
  (moves_call moves_expr).bind fun _ => (moves_sign .semicolon).map fun _ => rfl

theorem moves_returnStmt : Moves f (Stmt.relocate f) returnStmt returnStmt :=
  (moves_keyword .return_).bind fun _ => moves_expr.optional.bind fun _ =>
    (moves_sign .semicolon).map fun _ => rfl

section Block

variable {block : Parser Block} (h : Moves f (Block.relocate f) block block)
include h

theorem moves_ifStmt : Moves f (Stmt.relocate f) (ifStmt block) (ifStmt block) := by
  have helse : Moves f (Block.relocate f) (do keyword .else_; block) (do keyword .else_; block) :=
    (moves_keyword .else_).bind fun _ => h
  refine (moves_keyword .if_).bind fun _ => moves_condition.bind fun cond => h.bind fun body =>
    helse.optional.map fun elseBlock? => ?_
  cases elseBlock? <;> rfl

theorem moves_loopStmt (word : Keyword) (kind : LoopKind) :
    Moves f (Stmt.relocate f) (loopStmt word kind block) (loopStmt word kind block) :=
  (moves_keyword word).bind fun _ => moves_condition.bind fun _ => h.map fun _ => rfl

theorem moves_stmtWith : Moves f (Stmt.relocate f) (stmtWith block) (stmtWith block) := by
  refine moves_assignStmt.orElse ?_
  refine (moves_postStmt .plusPlus .postInc).orElse ?_
  refine (moves_postStmt .minusMinus .postDec).orElse ?_
  refine (moves_preStmt .plusPlus .preInc).orElse ?_
  refine (moves_preStmt .minusMinus .preDec).orElse ?_
  refine moves_readStmt.orElse (moves_writeStmt.orElse ?_)
  refine (moves_ifStmt h).orElse ?_
  refine (moves_loopStmt h .while_ .whileLoop).orElse ?_
  refine (moves_loopStmt h .repeat_ .repeatLoop).orElse ?_
  exact moves_callStmt.orElse moves_returnStmt

theorem moves_blockWith : Moves f (Block.relocate f) (blockWith block) (blockWith block) := by
  refine Moves.between (moves_varDecl.many.bind fun decls => ?_)
  refine (moves_stmtWith h).many.map fun stmts => ?_
  rw [Block.relocate, Stmt.relocateAll_eq_map]

end Block

theorem moves_block : Moves f (Block.relocate f) block block :=
  moves_recursive fun _ => moves_blockWith

/-! ## Programs -/

theorem moves_structDecl : Moves f (Decl.relocate f) structDecl structDecl :=
  (moves_keyword .struct_).bind fun _ => moves_ident.bind fun _ =>
    moves_varDecl.many.between.bind fun _ => (moves_sign .semicolon).optional.map fun _ => rfl

theorem moves_fnDecl : Moves f (Decl.relocate f) fnDecl fnDecl :=
  moves_formal.bind fun _ => (moves_formal.sepBy (moves_sign .comma)).between.bind fun _ =>
    moves_block.map fun _ => rfl

theorem moves_topVarDecl : Moves f (Decl.relocate f) topVarDecl topVarDecl :=
  moves_varDecl.map fun _ => rfl

theorem moves_decl : Moves f (Decl.relocate f) decl decl :=
  moves_structDecl.orElse (moves_fnDecl.orElse moves_topVarDecl)

theorem moves_program : Moves f (Program.relocate f) program program :=
  Moves.whole (moves_decl.many.map fun _ => rfl)

end NameCheck.Grammar

namespace NameCheck.Program

open NameCheck.Parser

variable {f : Position → Position} {ts us : List Lexeme}

/-- The same tokens elsewhere are read as the same program elsewhere, or both fail with one miss. -/
theorem parse_moves (h : List.Forall₂ (Lexeme.Moves f) ts us) (eoi eoi' : Span) :
    (∃ miss, parse ts eoi = .error (.ofMiss ts eoi miss) ∧
        parse us eoi' = .error (.ofMiss us eoi' miss)) ∨
      ∃ p, parse ts eoi = .ok p ∧ parse us eoi' = .ok (p.relocate f) := by
  have hij : (Input.of ts).Moves f (.of us) := h
  rw [parse, parse, Parser.parse, Parser.parse, run, run]
  rcases (Grammar.moves_program hij).cases with
    ⟨miss, hts, hus⟩ | ⟨p, rest, rest', missed, hts, hus, -⟩
  · rw [hts, hus]
    exact Or.inl ⟨miss, rfl, rfl⟩
  · rw [hts, hus]
    exact Or.inr ⟨p, rfl, rfl⟩

end NameCheck.Program
