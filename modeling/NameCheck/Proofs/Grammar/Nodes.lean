import NameCheck.Proofs.Grammar.Expectations
import NameCheck.Proofs.Grammar.Leaves
import NameCheck.Token.Tokenize

/-!
# The expressions in a tree

Every expression in a tree that was read, however deep, was itself read from a piece of the lexemes.
It has the shape that the grammar gives to expressions, and it is reported at the first name or
literal of its piece.
-/

namespace NameCheck

open Grammar

/-! ## Nodes -/

/-- An expression in a tree, with the leaves of the tree to the left of it. -/
structure Node where
  left : List Leaf
  expr : Expr

/-- The nodes of things that stand one after another, to the right of some leaves. -/
def Node.inOrder {α : Type} (leaves : α → List Leaf) (nodes : List Leaf → α → List Node)
    (left : List Leaf) : List α → List Node
  | [] => []
  | a :: as => nodes left a ++ inOrder leaves nodes (left ++ leaves a) as

mutual

/-- The nodes of an expression to the right of some leaves: the expression and all inside of it. -/
def Expr.nodes (left : List Leaf) : Expr → List Node
  | .int pos value => [⟨left, .int pos value⟩]
  | .str pos raw => [⟨left, .str pos raw⟩]
  | .bool pos value => [⟨left, .bool pos value⟩]
  | .id pos name => [⟨left, .id pos name⟩]
  | .dot pos base field => ⟨left, .dot pos base field⟩ :: base.nodes left
  | .assign pos lhs rhs =>
    ⟨left, .assign pos lhs rhs⟩ :: (lhs.nodes left ++ rhs.nodes (left ++ lhs.leaves))
  | .call pos callee args =>
    ⟨left, .call pos callee args⟩ :: Expr.nodesAll (left ++ [.name callee]) args
  | .unary pos op operand => ⟨left, .unary pos op operand⟩ :: operand.nodes left
  | .binary pos op lhs rhs =>
    ⟨left, .binary pos op lhs rhs⟩ :: (lhs.nodes left ++ rhs.nodes (left ++ lhs.leaves))

/-- The nodes of expressions in order. -/
def Expr.nodesAll (left : List Leaf) : List Expr → List Node
  | [] => []
  | e :: es => e.nodes left ++ Expr.nodesAll (left ++ e.leaves) es

end

mutual

/-- The nodes of a statement to the right of some leaves. -/
def Stmt.nodes (left : List Leaf) : Stmt → List Node
  | .act _ e => e.nodes left
  | .ifThen cond body | .loop _ cond body => cond.nodes left ++ body.nodes (left ++ cond.leaves)
  | .ifElse cond thenBlock elseBlock =>
    cond.nodes left ++ (thenBlock.nodes (left ++ cond.leaves) ++
      elseBlock.nodes (left ++ cond.leaves ++ thenBlock.leaves))
  | .ret none => []
  | .ret (some e) => e.nodes left

/-- The nodes of a block to the right of some leaves. -/
def Block.nodes (left : List Leaf) : Block → List Node
  | .mk decls stmts => Stmt.nodesAll (left ++ decls.flatMap VarDecl.leaves) stmts

/-- The nodes of statements in order. -/
def Stmt.nodesAll (left : List Leaf) : List Stmt → List Node
  | [] => []
  | stmt :: stmts => stmt.nodes left ++ Stmt.nodesAll (left ++ stmt.leaves) stmts

end

/-- The nodes of a declaration at the top.  Only the body of a function has any. -/
def Decl.nodes (left : List Leaf) : Decl → List Node
  | .fn ⟨returns, name, formals, body⟩ =>
    body.nodes (left ++ VarDecl.leaves ⟨returns, name⟩ ++ formals.flatMap VarDecl.leaves)
  | .var _ | .struct _ => []

/-- The nodes of a program. -/
def Program.nodes (p : Program) : List Node :=
  Node.inOrder Decl.leaves Decl.nodes [] p.decls

mutual

/-- A statement and all statements inside of it. -/
def Stmt.statements : Stmt → List Stmt
  | .act action e => [.act action e]
  | .ifThen cond body => .ifThen cond body :: body.statements
  | .ifElse cond thenBlock elseBlock =>
    .ifElse cond thenBlock elseBlock :: (thenBlock.statements ++ elseBlock.statements)
  | .loop kind cond body => .loop kind cond body :: body.statements
  | .ret value => [.ret value]

/-- The statements in a block. -/
def Block.statements : Block → List Stmt
  | .mk _ stmts => Stmt.statementsAll stmts

/-- The statements among statements and inside of them. -/
def Stmt.statementsAll : List Stmt → List Stmt
  | [] => []
  | stmt :: stmts => stmt.statements ++ Stmt.statementsAll stmts

end

/-- The statements in a declaration at the top. -/
def Decl.statements : Decl → List Stmt
  | .fn decl => decl.body.statements
  | .var _ | .struct _ => []

/-- The statements of a program, at any depth. -/
def Program.statements (p : Program) : List Stmt :=
  p.decls.flatMap Decl.statements

/-! ## Shapes -/

/-- A path: a name, or a field of a path, with the name at its root. -/
inductive Expr.PathFrom (root : Ident) : Expr → Prop where
  | id : PathFrom root (.id root.pos root)
  | dot {base : Expr} {field : Ident} (hbase : base.PathFrom root) :
      PathFrom root (.dot root.pos base field)

/-- The shape of an expression that was read.  A path is reported where its root is, an assignment
and an operator where their first operand is, and a call where its callee is. -/
inductive Expr.Shaped : Expr → Prop where
  | int {pos : Position} {value : Int} : Shaped (.int pos value)
  | str {pos : Position} {raw : String} : Shaped (.str pos raw)
  | bool {pos : Position} {value : Bool} : Shaped (.bool pos value)
  | path {root : Ident} {e : Expr} (h : e.PathFrom root) : Shaped e
  | assign {root : Ident} {lhs rhs : Expr} (h : lhs.PathFrom root) :
      Shaped (.assign lhs.pos lhs rhs)
  | call {callee : Ident} {args : List Expr} : Shaped (.call callee.pos callee args)
  | unary {op : UnaryOp} {operand : Expr} : Shaped (.unary operand.pos op operand)
  | binary {op : BinaryOp} {lhs rhs : Expr} : Shaped (.binary lhs.pos op lhs rhs)

/-- What each action is done with: an assignment is assigned, a call is called, any expression is
written, and the others need a path. -/
inductive Action.Takes : Action → Expr → Prop where
  | assign {pos : Position} {lhs rhs : Expr} : Takes .assign (.assign pos lhs rhs)
  | call {pos : Position} {callee : Ident} {args : List Expr} : Takes .call (.call pos callee args)
  | write {e : Expr} : Takes .write e
  | path {action : Action} {root : Ident} {e : Expr}
      (haction : action ∈ [.preInc, .preDec, .postInc, .postDec, .read]) (h : e.PathFrom root) :
      Takes action e

/-- An action of a statement that was read is done with what it takes. -/
def Stmt.Shaped : Stmt → Prop
  | .act action e => action.Takes e
  | _ => True

/-- An expression is reported in a piece of lexemes: at the first name or literal of it, which only
opening brackets and prefixes stand before. -/
def Expr.ReportedIn (e : Expr) (piece : List Lexeme) : Prop :=
  ∃ skipped first behind, piece = skipped ++ first :: behind ∧
    (∀ lexeme ∈ skipped, lexeme.token ∈ [.sign .lparen, .sign .minus, .sign .not]) ∧
    first.leaf?.isSome ∧ first.span.start = e.pos

/-- A node was read from a piece of the lexemes to the right of some leaves: the grammar derives its
expression from the piece, and the names and literals before the piece are the leaves before the
node. -/
def Node.ReadFrom (left : List Leaf) (lexemes : List Lexeme) (node : Node) : Prop :=
  ∃ before piece after, lexemes = before ++ (piece ++ after) ∧
    node.left = left ++ before.filterMap Lexeme.leaf? ∧ Derives .exp piece node.expr

namespace Node

variable {α : Type} {leaves : α → List Leaf} {nodes : List Leaf → α → List Node}
  {left : List Leaf} {node : Node}

theorem inOrder_append (left : List Leaf) (as bs : List α) :
    inOrder leaves nodes left (as ++ bs) =
      inOrder leaves nodes left as ++ inOrder leaves nodes (left ++ as.flatMap leaves) bs := by
  induction as generalizing left with
  | nil => rw [List.flatMap_nil, List.append_nil]; rfl
  | cons a as ih =>
      rw [List.cons_append, inOrder, inOrder, ih, List.flatMap_cons, List.append_assoc,
        List.append_assoc]

theorem nodesAll_exprs (left : List Leaf) (es : List Expr) :
    Expr.nodesAll left es = inOrder Expr.leaves Expr.nodes left es := by
  induction es generalizing left with
  | nil => rfl
  | cons e es ih => rw [Expr.nodesAll, ih, inOrder]

theorem nodesAll_stmts (left : List Leaf) (ss : List Stmt) :
    Stmt.nodesAll left ss = inOrder Stmt.leaves Stmt.nodes left ss := by
  induction ss generalizing left with
  | nil => rfl
  | cons st ss ih => rw [Stmt.nodesAll, ih, inOrder]

/-! ## Nodes of groups -/

/-- The nodes of a location are its beginnings. -/
theorem mem_nodes_dots {root : Ident} {fields : List Ident}
    (h : node ∈ (dots root fields).nodes left) :
    ∃ front back, fields = front ++ back ∧ node = ⟨left, dots root front⟩ := by
  induction fields using List.reverseRecOn with
  | nil => exact ⟨[], [], rfl, List.mem_singleton.mp h⟩
  | append_singleton fields field ih =>
      rw [dots_concat, Expr.nodes] at h
      rcases List.mem_cons.mp h with rfl | h
      · exact ⟨fields ++ [field], [], (List.append_nil _).symm, by rw [dots_concat]⟩
      · obtain ⟨front, back, rfl, rfl⟩ := ih h
        exact ⟨front, back ++ [field], List.append_assoc _ _ _, rfl⟩

/-- The nodes of prefixes and their operand are what is left behind some of the prefixes, and the
nodes of the operand. -/
theorem mem_nodes_prefixed {ops : List UnaryOp} {operand : Expr}
    (h : node ∈ (prefixed ops operand).nodes left) :
    (∃ front back, ops = front ++ back ∧ node = ⟨left, prefixed back operand⟩) ∨
      node ∈ operand.nodes left := by
  induction ops with
  | nil => exact Or.inr h
  | cons op ops ih =>
      change node ∈ (Expr.unary _ op (prefixed ops operand)).nodes left at h
      rw [Expr.nodes] at h
      rcases List.mem_cons.mp h with rfl | h
      · exact Or.inl ⟨[], op :: ops, rfl, rfl⟩
      · rcases ih h with ⟨front, back, rfl, rfl⟩ | h
        · exact Or.inl ⟨op :: front, back, rfl, rfl⟩
        · exact Or.inr h

theorem folded_concat (first : Expr) (others : List (BinaryOp × Expr)) (op : BinaryOp)
    (rhs : Expr) : folded first (others ++ [(op, rhs)]) =
      .binary (folded first others).pos op (folded first others) rhs := by
  rw [folded, List.foldl_append]
  rfl

/-- The nodes of operands that were folded are the beginnings of the fold, and the nodes of the
operands. -/
theorem mem_nodes_folded {first : Expr} {others : List (BinaryOp × Expr)}
    (h : node ∈ (folded first others).nodes left) :
    (∃ front back, others = front ++ back ∧ node = ⟨left, folded first front⟩) ∨
      node ∈ first.nodes left ∨
      node ∈ inOrder (fun other => other.2.leaves) (fun left other => other.2.nodes left)
        (left ++ first.leaves) others := by
  induction others using List.reverseRecOn with
  | nil => exact Or.inr (Or.inl h)
  | append_singleton others other ih =>
      obtain ⟨op, rhs⟩ := other
      rw [folded_concat, Expr.nodes] at h
      rw [inOrder_append]
      rcases List.mem_cons.mp h with rfl | h
      · exact Or.inl ⟨_, [], (List.append_nil _).symm, by rw [folded_concat]⟩
      rcases List.mem_append.mp h with h | h
      · rcases ih h with ⟨front, back, rfl, rfl⟩ | h | h
        · exact Or.inl ⟨front, back ++ [(op, rhs)], List.append_assoc _ _ _, rfl⟩
        · exact Or.inr (Or.inl h)
        · exact Or.inr (Or.inr (List.mem_append_left _ h))
      · rw [leaves_folded, ← List.append_assoc] at h
        refine Or.inr (Or.inr (List.mem_append_right _ ?_))
        rwa [inOrder, inOrder, List.append_nil]

end Node

/-! ## What is derived as an expression -/

namespace Grammar

variable {ts : List Lexeme} {e : Expr} {l k : Level} {n : Nonterminal}

theorem Derives.widen (hk : l.operand? = some k) (h : Derives (.level k) ts e) :
    Derives (.level l) ts e :=
  List.append_nil ts ▸ .level hk h .manyNil

theorem Derives.exp_of_level (h : Derives (.level l) ts e) : Derives .exp ts e := by
  cases l with
  | unary => exact .or (.widen rfl (.widen rfl (.widen rfl (.widen rfl (.widen rfl h)))))
  | prod => exact .or (.widen rfl (.widen rfl (.widen rfl (.widen rfl h))))
  | sum => exact .or (.widen rfl (.widen rfl (.widen rfl h)))
  | rel => exact .or (.widen rfl (.widen rfl h))
  | and => exact .or (.widen rfl h)
  | or => exact .or h

theorem Derives.exp_of_atom (h : Derives .atom ts e) : Derives .exp ts e :=
  .or (h.level_of_atom .or)

/-- What is read one after another can be divided. -/
theorem Derives.many_split {front back : List n.Tree} (h : Derives (.many n) ts (front ++ back)) :
    ∃ us vs, ts = us ++ vs ∧ Derives (.many n) us front ∧ Derives (.many n) vs back := by
  induction front generalizing ts with
  | nil => exact ⟨[], ts, rfl, .manyNil, h⟩
  | cons t front ih =>
      cases h with
      | manyCons ht hs =>
          obtain ⟨us, vs, rfl, hfront, hback⟩ := ih hs
          exact ⟨_, vs, (List.append_assoc _ _ _).symm, .manyCons ht hfront, hback⟩

theorem pos_prefixed (ops : List UnaryOp) (operand : Expr) :
    (prefixed ops operand).pos = operand.pos := by
  induction ops with
  | nil => rfl
  | cons op ops ih => exact ih

theorem pos_folded (first : Expr) (others : List (BinaryOp × Expr)) :
    (folded first others).pos = first.pos := by
  induction others using List.reverseRecOn with
  | nil => rfl
  | append_singleton others other ih => rw [Node.folded_concat, Expr.pos, ih]

theorem pathFrom_dots (root : Ident) (fields : List Ident) : (dots root fields).PathFrom root := by
  induction fields using List.reverseRecOn with
  | nil => exact .id
  | append_singleton fields field ih =>
      rw [dots_concat, pos_dots]
      exact .dot ih

end Grammar

namespace Expr

variable {e d : Expr} {ts us : List Lexeme} {first : Lexeme}

theorem Shaped.prefixed (h : e.Shaped) (ops : List UnaryOp) :
    (Grammar.prefixed ops e).Shaped := by
  cases ops with
  | nil => exact h
  | cons op ops => exact .unary

theorem Shaped.folded (h : e.Shaped) (others : List (BinaryOp × Expr)) :
    (Grammar.folded e others).Shaped := by
  rcases List.eq_nil_or_concat' others with rfl | ⟨others, ⟨op, rhs⟩, rfl⟩
  · exact h
  · rw [Node.folded_concat]
    exact .binary

theorem ReportedIn.here (hfirst : first.leaf?.isSome) (h : first.span.start = e.pos) :
    e.ReportedIn (first :: ts) :=
  ⟨[], first, ts, rfl, fun _ h => absurd h List.not_mem_nil, hfirst, h⟩

theorem ReportedIn.append (h : e.ReportedIn ts) (us : List Lexeme) : e.ReportedIn (ts ++ us) := by
  obtain ⟨skipped, first, behind, rfl, hskipped, hfirst, hpos⟩ := h
  exact ⟨skipped, first, behind ++ us, List.append_assoc _ _ _, hskipped, hfirst, hpos⟩

theorem ReportedIn.skip (h : e.ReportedIn ts)
    (hus : ∀ lexeme ∈ us, lexeme.token ∈ [.sign .lparen, .sign .minus, .sign .not]) :
    e.ReportedIn (us ++ ts) := by
  obtain ⟨skipped, first, behind, rfl, hskipped, hfirst, hpos⟩ := h
  exact ⟨us ++ skipped, first, behind, (List.append_assoc _ _ _).symm,
    List.forall_mem_append.mpr ⟨hus, hskipped⟩, hfirst, hpos⟩

theorem ReportedIn.bracket (h : e.ReportedIn ts) (s : Span) :
    e.ReportedIn (⟨.sign .lparen, s⟩ :: ts) :=
  h.skip (List.forall_mem_singleton.mpr List.mem_cons_self)

theorem ReportedIn.of_pos (h : e.ReportedIn ts) (hpos : d.pos = e.pos) : d.ReportedIn ts := by
  rw [ReportedIn, hpos]
  exact h

end Expr

namespace Grammar

variable {ts : List Lexeme} {e : Expr}

/-- Prefixes are written as minus signs and exclamation marks. -/
theorem Derives.skipped {ops : List UnaryOp} (h : Derives (.many .unaryOp) ts ops) :
    ∀ lexeme ∈ ts, lexeme.token ∈ [.sign .lparen, .sign .minus, .sign .not] := by
  induction ops generalizing ts with
  | nil =>
      cases h
      exact fun _ h => absurd h List.not_mem_nil
  | cons op ops ih =>
      cases h with
      | manyCons hop hops =>
          cases hop with
          | unaryOp hop =>
              refine List.forall_mem_cons.mpr ⟨?_, ih hops⟩
              have hall : ∀ entry ∈ unaryOps, Token.sign entry.1 ∈
                  [.sign .lparen, .sign .minus, .sign .not] := by decide
              exact hall _ hop

/-- The shape of what is derived from a nonterminal of expressions, and where it is reported. -/
def Nonterminal.Formed : (n : Nonterminal) → List Lexeme → n.Tree → Prop
  | .loc, ts, e => (∃ root, e.PathFrom root) ∧ e.ReportedIn ts
  | .exp, ts, e | .level _, ts, e | .atom, ts, e | .call, ts, e => e.Shaped ∧ e.ReportedIn ts
  | _, _, _ => True

/-- Expressions that are derived have their shape, and are reported at their first name or
literal. -/
theorem Derives.formed {n : Nonterminal} {t : n.Tree} (h : Derives n ts t) : n.Formed ts t := by
  induction h with
  | assign _ _ ihl _ =>
      obtain ⟨⟨root, hpath⟩, hreported⟩ := ihl
      exact ⟨.assign hpath, (hreported.append _).of_pos rfl⟩
  | or _ ih | atomCall _ ih => exact ih
  | level _ _ _ ihe _ =>
      exact ⟨ihe.1.folded _, (ihe.2.append _).of_pos (pos_folded _ _)⟩
  | unary hos _ _ ihe =>
      exact ⟨ihe.1.prefixed _, (ihe.2.skip hos.skipped).of_pos (pos_prefixed _ _)⟩
  | atomInt => exact ⟨.int, .here rfl rfl⟩
  | atomStr => exact ⟨.str, .here rfl rfl⟩
  | atomTrue | atomFalse => exact ⟨.bool, .here rfl rfl⟩
  | atomLoc _ ih =>
      obtain ⟨⟨root, hpath⟩, hreported⟩ := ih
      exact ⟨.path hpath, hreported⟩
  | atomParen _ ih =>
      exact ⟨ih.1, (ih.2.append _).bracket _⟩
  | call => exact ⟨@Expr.Shaped.call ⟨_, _⟩ _, .here rfl rfl⟩
  | loc => exact ⟨⟨_, pathFrom_dots _ _⟩, .here rfl (by rw [pos_dots])⟩
  | _ => trivial

end Grammar

/-! ## Nodes of derivations -/

namespace Node.ReadFrom

variable {left left' : List Leaf} {ts us : List Lexeme} {node : Node} {e : Expr}

theorem self (h : Derives .exp ts e) : ReadFrom left ts ⟨left, e⟩ :=
  ⟨[], ts, [], (List.append_nil ts).symm, (List.append_nil left).symm, h⟩

theorem append (h : node.ReadFrom left ts) (us : List Lexeme) : node.ReadFrom left (ts ++ us) := by
  obtain ⟨before, piece, after, rfl, hleft, hpiece⟩ := h
  refine ⟨before, piece, after ++ us, ?_, hleft, hpiece⟩
  rw [List.append_assoc, List.append_assoc]

/-- A node of a part is a node of the whole, to the right of the leaves before the part. -/
theorem behind (h : node.ReadFrom (left ++ ts.filterMap Lexeme.leaf?) us) :
    node.ReadFrom left (ts ++ us) := by
  obtain ⟨before, piece, after, rfl, hleft, hpiece⟩ := h
  refine ⟨ts ++ before, piece, after, (List.append_assoc _ _ _).symm, ?_, hpiece⟩
  rw [hleft, List.filterMap_append, List.append_assoc]

theorem cons {lexeme : Lexeme} (h : node.ReadFrom left ts) (hlexeme : lexeme.leaf? = none) :
    node.ReadFrom left (lexeme :: ts) := by
  have hleft : node.ReadFrom (left ++ [lexeme].filterMap Lexeme.leaf?) ts := by
    rwa [List.filterMap_cons_none hlexeme, List.filterMap_nil, List.append_nil]
  exact hleft.behind

theorem afterName {x : String} {s : Span} (h : node.ReadFrom (left ++ [.name ⟨x, s.start⟩]) ts) :
    node.ReadFrom left (⟨.name x, s⟩ :: ts) := by
  have hleft : node.ReadFrom (left ++ [(⟨.name x, s⟩ : Lexeme)].filterMap Lexeme.leaf?) ts := h
  exact hleft.behind

end Node.ReadFrom

namespace Grammar

variable {left : List Leaf} {ts us : List Lexeme} {node : Node}

/-- The nodes of what is derived from a nonterminal, to the right of some leaves. -/
def Nonterminal.nodes : (n : Nonterminal) → List Leaf → n.Tree → List Node
  | .program, left, p => Node.inOrder Decl.leaves Decl.nodes left p.decls
  | .decl, left, d | .structDecl, left, d | .fnDecl, left, d => d.nodes left
  | .block, left, b => b.nodes left
  | .stmt, left, st => st.nodes left
  | .exp, left, e | .level _, left, e | .atom, left, e | .call, left, e | .loc, left, e =>
    e.nodes left
  | .operation _, left, (_, e) => e.nodes left
  | .many n, left, ts | .list n, left, ts => Node.inOrder n.leaves n.nodes left ts
  | .next n, left, t => n.nodes left t
  | .varDecl, _, _ | .formal, _, _ | .type, _, _ | .dotName, _, _ | .unaryOp, _, _ => []

theorem readFrom_assign {s : Span} {lhs rhs : Expr} (hl : Derives .loc ts lhs)
    (he : Derives .exp us rhs) (ihl : ∀ node ∈ lhs.nodes left, node.ReadFrom left ts)
    (ihe : ∀ node ∈ rhs.nodes (left ++ lhs.leaves), node.ReadFrom (left ++ lhs.leaves) us)
    (h : node ∈ (Expr.assign lhs.pos lhs rhs).nodes left) :
    node.ReadFrom left (ts ++ ⟨.sign .assign, s⟩ :: us) := by
  rw [Expr.nodes] at h
  rcases List.mem_cons.mp h with rfl | h
  · exact .self (.assign hl he)
  rcases List.mem_append.mp h with h | h
  · exact (ihl node h).append _
  · refine .behind (.cons ?_ rfl)
    rw [hl.leaves]
    exact ihe node h

theorem readFrom_loc {x : String} {s : Span} {fields : List Ident}
    (hfs : Derives (.many .dotName) ts fields)
    (h : node ∈ (dots ⟨x, s.start⟩ fields).nodes left) :
    node.ReadFrom left (⟨.name x, s⟩ :: ts) := by
  obtain ⟨front, back, rfl, rfl⟩ := Node.mem_nodes_dots h
  obtain ⟨us, vs, rfl, hfront, -⟩ := hfs.many_split
  exact (Node.ReadFrom.self (Derives.atomLoc (.loc hfront)).exp_of_atom).append vs

theorem readFrom_unary {ops : List UnaryOp} {e : Expr} (hos : Derives (.many .unaryOp) ts ops)
    (he : Derives .atom us e) (ih : ∀ node ∈ e.nodes left, node.ReadFrom left us)
    (h : node ∈ (prefixed ops e).nodes left) : node.ReadFrom left (ts ++ us) := by
  rcases Node.mem_nodes_prefixed h with ⟨front, back, rfl, rfl⟩ | h
  · obtain ⟨xs, ys, rfl, hfront, hback⟩ := hos.many_split
    rw [List.append_assoc]
    refine .behind ?_
    rw [hfront.leaves, leaves_unaryOps, List.append_nil]
    exact .self (Derives.unary hback he).exp_of_level
  · refine .behind ?_
    rw [hos.leaves, leaves_unaryOps, List.append_nil]
    exact ih node h

theorem readFrom_level {l k : Level} {e : Expr} {os : List (BinaryOp × Expr)}
    (hk : l.operand? = some k) (he : Derives (.level k) ts e)
    (hos : Derives (.many (.operation l)) us os)
    (ihe : ∀ node ∈ e.nodes left, node.ReadFrom left ts)
    (ihos : ∀ node ∈ Nonterminal.nodes (.many (.operation l)) (left ++ e.leaves) os,
      node.ReadFrom (left ++ e.leaves) us)
    (h : node ∈ (folded e os).nodes left) : node.ReadFrom left (ts ++ us) := by
  rcases Node.mem_nodes_folded h with ⟨front, back, rfl, rfl⟩ | h | h
  · obtain ⟨xs, ys, rfl, hfront, -⟩ := hos.many_split
    rw [← List.append_assoc]
    exact (Node.ReadFrom.self (Derives.level hk he hfront).exp_of_level).append ys
  · exact (ihe node h).append us
  · refine .behind ?_
    rw [he.leaves]
    exact ihos node h

/-- The nodes of what is derived are read from the lexemes that it is derived from. -/
theorem Derives.readFrom {n : Nonterminal} {t : n.Tree} (h : Derives n ts t) (left : List Leaf) :
    ∀ node ∈ n.nodes left t, node.ReadFrom left ts := by
  -- A keyword or sign before a part is stepped over with `cons`.  A part itself is stepped over
  -- with `behind`, where the leaves of its tree are those of its lexemes.
  induction h generalizing left with
  | program _ ih | declStruct _ ih | declFn _ ih | or _ ih | atomCall _ ih | atomLoc _ ih =>
      exact ih left
  | declVar | structDecl | varDecl | basicType | structType | formal | returnStmt | unaryOp
  | dotName | manyNil | listNil => exact fun node hnode => absurd hnode List.not_mem_nil
  | fnDecl hf hfs _ _ _ ihb =>
      intro node hnode
      refine .behind (.cons (.behind (.cons ?_ rfl)) rfl)
      rw [hf.leaves, hfs.leaves]
      exact ihb _ node hnode
  | block hds _ _ ihss =>
      intro node hnode
      rw [Nonterminal.nodes, Block.nodes, Node.nodesAll_stmts] at hnode
      refine .cons (.behind (.append ?_ _)) rfl
      rw [hds.leaves]
      exact ihss _ node hnode
  | assignStmt hl he ihl ihe =>
      intro node hnode
      rw [← List.cons_append, ← List.append_assoc]
      exact (readFrom_assign hl he (ihl _) (ihe _) hnode).append _
  | postStmt _ _ ih | callStmt _ ih => exact fun node hnode => (ih left node hnode).append _
  | preStmt _ _ ih | returnValue _ ih | atomParen _ ih =>
      exact fun node hnode => ((ih left node hnode).append _).cons rfl
  | readStmt _ ih | writeStmt _ ih =>
      exact fun node hnode => (((ih left node hnode).append _).cons rfl).cons rfl
  | ifThen he _ ihe ihb =>
      intro node hnode
      refine .cons (.cons ?_ rfl) rfl
      rcases List.mem_append.mp hnode with hnode | hnode
      · exact (ihe left node hnode).append _
      · refine .behind (.cons ?_ rfl)
        rw [he.leaves]
        exact ihb _ node hnode
  | ifElse he hb _ ihe ihb ihb' =>
      intro node hnode
      refine .cons (.cons ?_ rfl) rfl
      rcases List.mem_append.mp hnode with hnode | hnode
      · exact (ihe left node hnode).append _
      refine .behind (.cons ?_ rfl)
      rw [he.leaves]
      rcases List.mem_append.mp hnode with hnode | hnode
      · exact (ihb _ node hnode).append _
      · refine .behind (.cons ?_ rfl)
        rw [hb.leaves]
        exact ihb' _ node hnode
  | loopStmt hword he _ ihe ihb =>
      intro node hnode
      obtain ⟨ht, hf⟩ := loopWord_not_literal hword
      refine .cons (.cons ?_ rfl) (leaf?_keyword ht hf _)
      rcases List.mem_append.mp hnode with hnode | hnode
      · exact (ihe left node hnode).append _
      · refine .behind (.cons ?_ rfl)
        rw [he.leaves]
        exact ihb _ node hnode
  | assign hl he ihl ihe => exact fun node => readFrom_assign hl he (ihl _) (ihe _)
  | level hk he hos ihe ihos => exact fun node => readFrom_level hk he hos (ihe left) (ihos _)
  | operation _ _ _ ih | next _ ih => exact fun node hnode => (ih left node hnode).cons rfl
  | unary hos he _ ihe => exact fun node => readFrom_unary hos he (ihe left)
  | atomInt => exact List.forall_mem_singleton.mpr (.self Derives.atomInt.exp_of_atom)
  | atomStr => exact List.forall_mem_singleton.mpr (.self Derives.atomStr.exp_of_atom)
  | atomTrue => exact List.forall_mem_singleton.mpr (.self Derives.atomTrue.exp_of_atom)
  | atomFalse => exact List.forall_mem_singleton.mpr (.self Derives.atomFalse.exp_of_atom)
  | call has ih =>
      intro node hnode
      rw [Nonterminal.nodes, Expr.nodes, Node.nodesAll_exprs] at hnode
      rcases List.mem_cons.mp hnode with rfl | hnode
      · exact .self (Derives.atomCall (.call has)).exp_of_atom
      · refine .afterName (.cons ?_ rfl)
        exact (ih _ node hnode).append _
  | loc hfs _ => exact fun node => readFrom_loc hfs
  | manyCons h _ ih ihs | listCons h _ ih ihs =>
      intro node hnode
      rcases List.mem_append.mp hnode with hnode | hnode
      · exact (ih left node hnode).append _
      · refine .behind ?_
        rw [h.leaves]
        exact ihs _ node hnode

end Grammar

/-! ## Statements of derivations -/

/-- All among some statements are shaped. -/
def Stmt.AllShaped (ss : List Stmt) : Prop :=
  ∀ st ∈ ss, st.Shaped

namespace Stmt.AllShaped

variable {ss ss' : List Stmt} {st : Stmt}

theorem nil : AllShaped [] :=
  fun _ h => absurd h List.not_mem_nil

theorem single (h : st.Shaped) : AllShaped [st] :=
  List.forall_mem_singleton.mpr h

theorem cons (h : st.Shaped) (hs : AllShaped ss) : AllShaped (st :: ss) :=
  List.forall_mem_cons.mpr ⟨h, hs⟩

theorem append (hs : AllShaped ss) (hs' : AllShaped ss') : AllShaped (ss ++ ss') :=
  List.forall_mem_append.mpr ⟨hs, hs'⟩

theorem statementsAll (h : ∀ st ∈ ss, AllShaped st.statements) :
    AllShaped (Stmt.statementsAll ss) := by
  induction ss with
  | nil => exact nil
  | cons st ss ih =>
      obtain ⟨hst, hss⟩ := List.forall_mem_cons.mp h
      exact hst.append (ih hss)

end Stmt.AllShaped

namespace Grammar

open Stmt (AllShaped)

/-- The statements in what is derived from a nonterminal are shaped. -/
def Nonterminal.Shaped : (n : Nonterminal) → n.Tree → Prop
  | .program, p => AllShaped p.statements
  | .decl, d | .structDecl, d | .fnDecl, d => AllShaped d.statements
  | .block, b => AllShaped b.statements
  | .stmt, st => AllShaped st.statements
  | .many n, ts | .list n, ts => ∀ t ∈ ts, n.Shaped t
  | .next n, t => n.Shaped t
  | _, _ => True

/-- Actions that are written with a sign are done with a location. -/
theorem takes_location {m : Sign} {a : Action} {ts : List Lexeme} {e : Expr}
    (h : (m, a) ∈ postActions ++ preActions) (hl : Derives .loc ts e) : a.Takes e := by
  have hall : ∀ entry ∈ postActions ++ preActions,
      entry.2 ∈ [Action.preInc, .preDec, .postInc, .postDec, .read] := by decide
  obtain ⟨⟨root, hpath⟩, -⟩ := hl.formed
  exact .path (hall _ h) hpath

theorem Derives.shaped {n : Nonterminal} {ts : List Lexeme} {t : n.Tree} (h : Derives n ts t) :
    n.Shaped t := by
  induction h with
  | program _ ih =>
      intro st hst
      obtain ⟨d, hd, hst⟩ := List.mem_flatMap.mp hst
      exact ih d hd st hst
  | declStruct _ ih | declFn _ ih => exact ih
  | declVar => exact .nil
  | structDecl => exact .nil
  | fnDecl _ _ _ _ _ ihb => exact ihb
  | block _ _ _ ihss => exact .statementsAll ihss
  | assignStmt => exact .single .assign
  | postStmt h hl _ => exact .single (takes_location (List.mem_append_left _ h) hl)
  | preStmt h hl _ => exact .single (takes_location (List.mem_append_right _ h) hl)
  | readStmt hl _ =>
      obtain ⟨⟨root, hpath⟩, -⟩ := hl.formed
      exact .single (.path (by decide) hpath)
  | writeStmt => exact .single .write
  | ifThen _ _ _ ihb | loopStmt _ _ _ _ ihb => exact .cons trivial ihb
  | ifElse _ _ _ _ ihb ihb' => exact .cons trivial (.append ihb ihb')
  | callStmt he _ =>
      cases he with
      | call => exact .single .call
  | returnStmt | returnValue => exact .single trivial
  | manyNil | listNil => exact fun _ h => absurd h List.not_mem_nil
  | manyCons _ _ ih ihs | listCons _ _ ih ihs => exact List.forall_mem_cons.mpr ⟨ih, ihs⟩
  | next _ ih => exact ih
  | _ => trivial

end Grammar

/-- Expressions in a tree that was read.  At any depth an action is done with what it takes, and
an expression has its shape, was read from a piece of the lexemes to the right of the leaves before
it, and is reported at the first name or literal of this piece. -/
theorem Program.parse_nodes {lexemes : List Lexeme} {eoi : Span} {p : Program}
    (h : parse lexemes eoi = .ok p) :
    (∀ st ∈ p.statements, st.Shaped) ∧
      ∀ node ∈ p.nodes, node.expr.Shaped ∧
        ∃ before piece after, lexemes = before ++ (piece ++ after) ∧
          node.left = before.filterMap Lexeme.leaf? ∧ Derives .exp piece node.expr ∧
          node.expr.ReportedIn piece := by
  have hp := parse_ok_iff_derives.mp h
  refine ⟨hp.shaped, fun node hnode => ?_⟩
  obtain ⟨before, piece, after, hlexemes, hleft, hpiece⟩ := hp.readFrom [] node hnode
  exact ⟨hpiece.formed.1, before, piece, after, hlexemes, hleft, hpiece, hpiece.formed.2⟩

/-- In `p.a=-(b.c+1);` the assignment and its left side are reported at `p`, and the sum, although a
minus sign and a bracket stand before it, at `b`. -/
theorem Program.parse_nodes_of_assignment :
    let lexemes := (Tokens.ofString "void f()\x7bp.a=-(b.c+1);\x7d").lexemes
    ∃ p, parse lexemes ⟨.first, .first⟩ = .ok p ∧
      p.nodes.map (fun node => node.expr.pos) =
        [⟨1, 10⟩, ⟨1, 10⟩, ⟨1, 10⟩, ⟨1, 16⟩, ⟨1, 16⟩, ⟨1, 16⟩, ⟨1, 16⟩, ⟨1, 20⟩] ∧
      (∀ st ∈ p.statements, st.Shaped) ∧
      ∀ node ∈ p.nodes, node.expr.Shaped ∧
        ∃ before piece after, lexemes = before ++ (piece ++ after) ∧
          node.left = before.filterMap Lexeme.leaf? ∧ Derives .exp piece node.expr ∧
          node.expr.ReportedIn piece := by
  intro lexemes
  have hparse : (parse lexemes ⟨.first, .first⟩).toOption.map
      (fun p => p.nodes.map fun node => node.expr.pos) =
        some [⟨1, 10⟩, ⟨1, 10⟩, ⟨1, 10⟩, ⟨1, 16⟩, ⟨1, 16⟩, ⟨1, 16⟩, ⟨1, 16⟩, ⟨1, 20⟩] := by
    decide +kernel
  cases h : parse lexemes ⟨.first, .first⟩ with
  | error error =>
      rw [h] at hparse
      cases hparse
  | ok p =>
      rw [h] at hparse
      exact ⟨p, rfl, Option.some.inj hparse, parse_nodes h⟩

end NameCheck
