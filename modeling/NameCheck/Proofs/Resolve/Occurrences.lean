import NameCheck.Proofs.Grammar.Leaves
import NameCheck.Proofs.Token.Places

/-!
# Occurrences of names

Every occurrence of a name in a program, from the left to the right, with the part that it plays
there.  In a program that was read from a text the occurrences stand at places of their own.
-/

namespace NameCheck

/-- What a type and a name belong to: a variable, with the formals that share its scope, a formal,
or a field of a struct. -/
inductive Owner where
  | variable (formals : List VarDecl)
  | formal
  | field (struct : StructDecl)

/-- The part that an occurrence of a name plays: it is used in an expression, selected from a
base, names the type of what is declared or the declared thing itself, is declared at the top as a
function or struct, or names what a function returns. -/
inductive Occurrence where
  | use (id : Ident)
  | member (base : Expr) (field : Ident)
  | typeName (owner : Owner) (decl : VarDecl) (name : Ident)
  | varName (owner : Owner) (decl : VarDecl)
  | topName (name : Ident)
  | returnType (name : Ident)

/-- The name that occurs, and where. -/
def Occurrence.ident : Occurrence → Ident
  | .use id => id
  | .member _ field => field
  | .varName _ decl => decl.name
  | .typeName _ _ name | .topName name | .returnType name => name

/-! ## Occurrences in trees -/

mutual

/-- The occurrences in an expression. -/
def Expr.occurrences : Expr → List Occurrence
  | .int .. | .str .. | .bool .. => []
  | .id _ name => [.use name]
  | .dot _ base field => base.occurrences ++ [.member base field]
  | .assign _ lhs rhs | .binary _ _ lhs rhs => lhs.occurrences ++ rhs.occurrences
  | .call _ callee args => .use callee :: Expr.occurrencesAll args
  | .unary _ _ operand => operand.occurrences

/-- The occurrences in expressions in order. -/
def Expr.occurrencesAll : List Expr → List Occurrence
  | [] => []
  | e :: es => e.occurrences ++ Expr.occurrencesAll es

end

/-- The occurrences in a declaration. -/
def VarDecl.occurrences (owner : Owner) (decl : VarDecl) : List Occurrence :=
  decl.type.structName?.toList.map (.typeName owner decl) ++ [.varName owner decl]

mutual

/-- The occurrences in a statement.  No formals share the scope of a block inside it. -/
def Stmt.occurrences : Stmt → List Occurrence
  | .act _ e => e.occurrences
  | .ifThen cond body | .loop _ cond body => cond.occurrences ++ body.occurrences []
  | .ifElse cond thenBlock elseBlock =>
    cond.occurrences ++ (thenBlock.occurrences [] ++ elseBlock.occurrences [])
  | .ret none => []
  | .ret (some e) => e.occurrences

/-- The occurrences in a block whose scope it shares with some formals. -/
def Block.occurrences (formals : List VarDecl) : Block → List Occurrence
  | .mk decls stmts =>
    decls.flatMap (VarDecl.occurrences (.variable formals)) ++ Stmt.occurrencesAll stmts

/-- The occurrences in statements in order. -/
def Stmt.occurrencesAll : List Stmt → List Occurrence
  | [] => []
  | stmt :: stmts => stmt.occurrences ++ Stmt.occurrencesAll stmts

end

/-- The occurrences in a function. -/
def FnDecl.occurrences (decl : FnDecl) : List Occurrence :=
  decl.returns.structName?.toList.map .returnType ++ (.topName decl.name ::
    (decl.formals.flatMap (VarDecl.occurrences .formal) ++ decl.body.occurrences decl.formals))

/-- The occurrences in a struct. -/
def StructDecl.occurrences (decl : StructDecl) : List Occurrence :=
  .topName decl.name :: decl.fields.flatMap (VarDecl.occurrences (.field decl))

/-- The occurrences in a declaration at the top. -/
def Decl.occurrences : Decl → List Occurrence
  | .var decl => decl.occurrences (.variable [])
  | .fn decl => decl.occurrences
  | .struct decl => decl.occurrences

/-- The occurrences in a program. -/
def Program.occurrences (p : Program) : List Occurrence :=
  p.decls.flatMap Decl.occurrences

/-! ## Occurrences are the names of a tree -/

/-- The names among leaves. -/
def Leaf.names (leaves : List Leaf) : List Ident :=
  leaves.filterMap Leaf.name?

namespace Leaf

variable {xs ys : List Leaf} {os ps : List Occurrence}

theorem pos_of_name? {leaf : Leaf} {id : Ident} (h : leaf.name? = some id) :
    id.pos = leaf.pos := by
  cases leaf with
  | name id' =>
      cases h
      rfl
  | _ => cases h

theorem names_append_eq (hx : names xs = os.map Occurrence.ident)
    (hy : names ys = ps.map Occurrence.ident) :
    names (xs ++ ys) = (os ++ ps).map Occurrence.ident := by
  rw [List.map_append, ← hx, ← hy]
  exact List.filterMap_append

theorem names_flatMap_eq {α : Type} {f : α → List Leaf} {g : α → List Occurrence}
    (h : ∀ a, names (f a) = (g a).map Occurrence.ident) (as : List α) :
    names (as.flatMap f) = (as.flatMap g).map Occurrence.ident := by
  induction as with
  | nil => rfl
  | cons a as ih => exact names_append_eq (h a) ih

end Leaf

open NameCheck.Leaf

mutual

theorem names_expr : ∀ e : Expr, names e.leaves = e.occurrences.map Occurrence.ident
  | .int .. | .str .. | .bool .. => rfl
  | .id _ _ => rfl
  | .dot _ base _ => names_append_eq (names_expr base) rfl
  | .assign _ lhs rhs | .binary _ _ lhs rhs => names_append_eq (names_expr lhs) (names_expr rhs)
  | .call _ callee args => congrArg (callee :: ·) (names_exprs args)
  | .unary _ _ operand => names_expr operand

theorem names_exprs :
    ∀ es : List Expr, names (Expr.leavesAll es) = (Expr.occurrencesAll es).map Occurrence.ident
  | [] => rfl
  | e :: es => names_append_eq (names_expr e) (names_exprs es)

end

theorem names_type (type : TypeSpec) (f : Ident → Occurrence) (hf : ∀ id, (f id).ident = id) :
    names type.leaves = (type.structName?.toList.map f).map Occurrence.ident := by
  cases type with
  | struct name => exact congrArg (· :: []) (hf name).symm
  | _ => rfl

theorem names_varDecl (owner : Owner) (decl : VarDecl) :
    names decl.leaves = (decl.occurrences owner).map Occurrence.ident :=
  names_append_eq (names_type decl.type (.typeName owner decl) fun _ => rfl) rfl

mutual

theorem names_stmt : ∀ st : Stmt, names st.leaves = st.occurrences.map Occurrence.ident
  | .act _ e => names_expr e
  | .ifThen cond body | .loop _ cond body =>
    names_append_eq (names_expr cond) (names_block [] body)
  | .ifElse cond thenBlock elseBlock =>
    names_append_eq (names_expr cond)
      (names_append_eq (names_block [] thenBlock) (names_block [] elseBlock))
  | .ret none => rfl
  | .ret (some e) => names_expr e

theorem names_block (formals : List VarDecl) :
    ∀ b : Block, names b.leaves = (b.occurrences formals).map Occurrence.ident
  | .mk decls stmts =>
    names_append_eq (names_flatMap_eq (names_varDecl (.variable formals)) decls) (names_stmts stmts)

theorem names_stmts :
    ∀ ss : List Stmt, names (Stmt.leavesAll ss) = (Stmt.occurrencesAll ss).map Occurrence.ident
  | [] => rfl
  | st :: ss => names_append_eq (names_stmt st) (names_stmts ss)

end

theorem names_decl (d : Decl) : names d.leaves = d.occurrences.map Occurrence.ident := by
  cases d with
  | var decl => exact names_varDecl (.variable []) decl
  | fn decl =>
      have hformals := names_flatMap_eq (names_varDecl .formal) decl.formals
      have hbody := names_block decl.formals decl.body
      have hreturns := names_type decl.returns .returnType fun _ => rfl
      exact names_append_eq hreturns (congrArg (decl.name :: ·) (names_append_eq hformals hbody))
  | struct decl =>
      have hfields := names_flatMap_eq (names_varDecl (.field decl)) decl.fields
      exact congrArg (decl.name :: ·) hfields

theorem Program.names_leaves (p : Program) :
    names p.leaves = p.occurrences.map Occurrence.ident :=
  names_flatMap_eq names_decl p.decls

/-- What the places of lexemes are to each other, the places of the occurrences that are read from
them are. -/
theorem Program.pairwise_occurrences {lexemes : List Lexeme} {eoi : Span} {p : Program}
    {R : Position → Position → Prop} (h : parse lexemes eoi = .ok p)
    (hR : lexemes.Pairwise fun a b => R a.span.start b.span.start) :
    (p.occurrences.map Occurrence.ident).Pairwise fun a b => R a.pos b.pos := by
  rw [← p.names_leaves, ← leaves_of_parse h]
  apply List.pairwise_filterMap.mpr
  apply List.pairwise_filterMap.mpr
  apply hR.imp
  intro a b hab leaf hleaf leaf' hleaf' id hid id' hid'
  rw [pos_of_name? hid, pos_of_name? hid', Lexeme.pos_of_leaf? hleaf, Lexeme.pos_of_leaf? hleaf']
  exact hab

/-- The occurrences in a program that was read from a text stand at increasing places. -/
theorem Program.occurrences_ordered {text : List Char} {eoi : Span} {p : Program}
    (h : parse (Tokens.ofText text).lexemes eoi = .ok p) :
    (p.occurrences.map Occurrence.ident).Pairwise fun a b => a.pos < b.pos :=
  pairwise_occurrences h (Tokens.lexemes_ordered text)

/-- In a program that was read from some lexemes, names occur where lexemes begin. -/
theorem Program.places_subset {lexemes : List Lexeme} {eoi : Span} {p : Program}
    (h : parse lexemes eoi = .ok p) :
    (p.occurrences.map Occurrence.ident).map Ident.pos ⊆
      lexemes.map fun lexeme => lexeme.span.start := by
  rw [← p.names_leaves, ← leaves_of_parse h]
  intro pos hpos
  obtain ⟨id, hid, rfl⟩ := List.mem_map.mp hpos
  obtain ⟨leaf, hleaf, hname⟩ := List.mem_filterMap.mp hid
  obtain ⟨lexeme, hlexeme, hleaf⟩ := List.mem_filterMap.mp hleaf
  rw [Leaf.pos_of_name? hname, Lexeme.pos_of_leaf? hleaf]
  exact List.mem_map_of_mem hlexeme

/-- The lexemes of a text begin at places of their own. -/
theorem Tokens.starts_nodup (text : List Char) :
    ((ofText text).lexemes.map fun lexeme => lexeme.span.start).Nodup := by
  apply List.pairwise_map.mpr
  apply (lexemes_ordered text).imp
  intro a b hab heq
  rw [heq] at hab
  exact Position.lt_irrefl _ hab

/-- Reading conserves tokens: the names and literals of a program, from the left to the right, are
those of its lexemes, in the same order, with what they say and with the places where the lexemes
begin.  So if lexemes begin at places of their own, as those of a text do, the occurrences of names
stand at places of their own, and they are the names among the leaves. -/
theorem Program.parse_conserves {lexemes : List Lexeme} {eoi : Span} {p : Program}
    (h : parse lexemes eoi = .ok p) :
    p.leaves = lexemes.filterMap Lexeme.leaf? ∧
      p.occurrences.map Occurrence.ident = p.leaves.filterMap Leaf.name? ∧
      ((lexemes.map fun lexeme => lexeme.span.start).Nodup →
        ((p.occurrences.map Occurrence.ident).map Ident.pos).Nodup) ∧
      ∀ text, ((Tokens.ofText text).lexemes.map fun lexeme => lexeme.span.start).Nodup := by
  refine ⟨(leaves_of_parse h).symm, p.names_leaves.symm, fun hnodup => ?_, Tokens.starts_nodup⟩
  have hstarts : lexemes.Pairwise fun a b => a.span.start ≠ b.span.start :=
    List.pairwise_map.mp hnodup
  exact List.pairwise_map.mpr (pairwise_occurrences h hstarts)

/-- A function with two branches: the condition comes before them, the callee before the arguments,
and the base before the field. -/
theorem Program.parse_conserves_branches :
    let lexemes := (Tokens.ofString
      "P f(int n)\x7bif(!n)\x7breturn p.a;\x7delse\x7bp.a=f(n*2,\"s\",true);\x7d\x7d").lexemes
    ∃ p, parse lexemes ⟨.first, .first⟩ = .ok p ∧
      p.leaves = [.name ⟨"P", ⟨1, 1⟩⟩, .name ⟨"f", ⟨1, 3⟩⟩, .name ⟨"n", ⟨1, 9⟩⟩,
        .name ⟨"n", ⟨1, 16⟩⟩, .name ⟨"p", ⟨1, 26⟩⟩, .name ⟨"a", ⟨1, 28⟩⟩, .name ⟨"p", ⟨1, 36⟩⟩,
        .name ⟨"a", ⟨1, 38⟩⟩, .name ⟨"f", ⟨1, 40⟩⟩, .name ⟨"n", ⟨1, 42⟩⟩, .int ⟨1, 44⟩ 2,
        .str ⟨1, 46⟩ "\"s\"", .bool ⟨1, 50⟩ true] ∧
      ((p.occurrences.map Occurrence.ident).map Ident.pos).Nodup := by
  intro lexemes
  have hleaves : lexemes.filterMap Lexeme.leaf? =
      [.name ⟨"P", ⟨1, 1⟩⟩, .name ⟨"f", ⟨1, 3⟩⟩, .name ⟨"n", ⟨1, 9⟩⟩,
        .name ⟨"n", ⟨1, 16⟩⟩, .name ⟨"p", ⟨1, 26⟩⟩, .name ⟨"a", ⟨1, 28⟩⟩, .name ⟨"p", ⟨1, 36⟩⟩,
        .name ⟨"a", ⟨1, 38⟩⟩, .name ⟨"f", ⟨1, 40⟩⟩, .name ⟨"n", ⟨1, 42⟩⟩, .int ⟨1, 44⟩ 2,
        .str ⟨1, 46⟩ "\"s\"", .bool ⟨1, 50⟩ true] := by
    decide +kernel
  have hparse : (parse lexemes ⟨.first, .first⟩).toOption.isSome = true := by decide +kernel
  cases h : parse lexemes ⟨.first, .first⟩ with
  | error error =>
      rw [h] at hparse
      cases hparse
  | ok p =>
      obtain ⟨hconserved, -, hdistinct, hstarts⟩ := parse_conserves h
      exact ⟨p, rfl, hconserved.trans hleaves, hdistinct (hstarts _)⟩

end NameCheck
