import NameCheck.Grammar.Parser
import NameCheck.Tree

/-!
# Expressions

The levels of expressions, from locations, calls and literals up to assignments.  The levels
with two operands associate to the left, prefixes and assignments to the right; an expression is
reported where its first name or literal stands.
-/

namespace NameCheck.Grammar

open NameCheck.Parser

/-- A name. -/
def ident : Parser Ident :=
  select fun lexeme =>
    match lexeme.token with
    | .name name => some ⟨name, lexeme.span.start⟩
    | _ => none

/-- A variable, or a field that is reached from it through any number of dots. -/
def location : Parser Expr := do
  let root ← ident
  let fields ← many (do sign .dot; ident)
  return fields.foldl (fun base field => .dot base.pos base field) (.id root.pos root)

/-- A call of a function, with arguments read by `expr`. -/
def call (expr : Parser Expr) : Parser Expr := do
  let callee ← ident
  let args ← between .lparen .rparen (sepBy expr (sign .comma))
  return .call callee.pos callee args

/-- A number, a string or a truth value. -/
def literal : Parser Expr :=
  select fun lexeme =>
    let pos := lexeme.span.start
    match lexeme.token with
    | .int value => some (.int pos value)
    | .str raw => some (.str pos raw)
    | .keyword .true_ => some (.bool pos true)
    | .keyword .false_ => some (.bool pos false)
    | _ => none

/-- An expression that no operator stands in.  A call is tried before a location, which begins
in the same way. -/
def atom (expr : Parser Expr) : Parser Expr :=
  call expr <|> literal <|> location <|> between .lparen .rparen expr

/-- An operator that is written as one sign. -/
def operator (s : Sign) (op : α) : Parser α := do
  sign s
  return op

/-- An atom after any number of prefixes. -/
def unary (expr : Parser Expr) : Parser Expr := do
  let ops ← many (operator .minus UnaryOp.neg <|> operator .not UnaryOp.not)
  let operand ← atom expr
  return ops.foldr (fun op operand => .unary operand.pos op operand) operand

/-- One level of operators with two operands, which associate to the left. -/
def leftAssoc (operand : Parser Expr) (op : Parser BinaryOp) : Parser Expr := do
  let first ← operand
  let others ← many (do
    let op ← op
    let rhs ← operand
    return (op, rhs))
  return others.foldl (fun lhs (op, rhs) => .binary lhs.pos op lhs rhs) first

/-- Products and quotients. -/
def product (expr : Parser Expr) : Parser Expr :=
  leftAssoc (unary expr) (operator .star .mul <|> operator .slash .div)

/-- Sums and differences. -/
def sum (expr : Parser Expr) : Parser Expr :=
  leftAssoc (product expr) (operator .plus .add <|> operator .minus .sub)

/-- Comparisons. -/
def relation (expr : Parser Expr) : Parser Expr :=
  leftAssoc (sum expr)
    (operator .eqEq .eq <|> operator .notEq .neq <|> operator .leq .leq <|>
      operator .geq .geq <|> operator .lt .lt <|> operator .gt .gt)

/-- Conjunctions. -/
def conjunction (expr : Parser Expr) : Parser Expr :=
  leftAssoc (relation expr) (operator .and .and)

/-- Disjunctions. -/
def disjunction (expr : Parser Expr) : Parser Expr :=
  leftAssoc (conjunction expr) (operator .or .or)

/-- An assignment, with a right side read by `expr`. -/
def assignment (expr : Parser Expr) : Parser Expr := do
  let lhs ← location
  sign .assign
  let rhs ← expr
  return .assign lhs.pos lhs rhs

/-- An expression whose inner expressions are read by `expr`. -/
def exprWith (expr : Parser Expr) : Parser Expr :=
  assignment expr <|> disjunction expr

/-- An expression. -/
def expr : Parser Expr := recursive exprWith

end NameCheck.Grammar
