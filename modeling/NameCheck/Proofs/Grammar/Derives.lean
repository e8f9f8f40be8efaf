import NameCheck.Token.Basic
import NameCheck.Tree

/-!
# The grammar

The context-free grammar of the language, as a relation between a nonterminal, the lexemes that
are derived from it, and the tree of the derivation.  Each constructor is one production.  The
bracketed groups of the grammar are nonterminals of their own: repetitions, lists with commas, and
the pairs of a sign with what belongs to it.  Nothing here says how a text is read.

    program    := decl*
    decl       := structDecl | fnDecl | varDecl
    structDecl := 'struct' ID '{' varDecl* '}' ';'?
    varDecl    := type ID ';'
    type       := 'int' | 'bool' | 'void' | 'struct'? ID
    fnDecl     := type ID '(' (formal (',' formal)*)? ')' block
    formal     := type ID
    block      := '{' varDecl* stmt* '}'
    stmt       := loc '=' exp ';' | loc '++' ';' | loc '--' ';' | '++' loc ';' | '--' loc ';'
                | 'cin' '>>' loc ';' | 'cout' '<<' exp ';'
                | 'if' '(' exp ')' block ('else' block)?
                | 'while' '(' exp ')' block | 'repeat' '(' exp ')' block
                | call ';' | 'return' exp? ';'
    exp        := loc '=' exp | or
    or         := and ('||' and)*
    and        := rel ('&&' rel)*
    rel        := sum (relop sum)*
    sum        := prod (('+'|'-') prod)*
    prod       := unary (('*'|'/') unary)*
    unary      := ('-'|'!')* atom
    atom       := call | INTLIT | STRLIT | 'true' | 'false' | loc | '(' exp ')'
    call       := ID '(' (exp (',' exp)*)? ')'
    loc        := ID ('.' ID)*
-/

namespace NameCheck.Grammar

/-- The levels of operators, the tightest first. -/
inductive Level where
  | unary | prod | sum | rel | and | or
deriving DecidableEq

namespace Level

/-- The level of the operands, where a level has operators with two operands. -/
def operand? : Level → Option Level
  | .unary => none
  | .prod => some .unary
  | .sum => some .prod
  | .rel => some .sum
  | .and => some .rel
  | .or => some .and

/-- The operators with two operands of a level, by the signs that they are written as. -/
def ops : Level → List (Sign × BinaryOp)
  | .unary => []
  | .prod => [(.star, .mul), (.slash, .div)]
  | .sum => [(.plus, .add), (.minus, .sub)]
  | .rel =>
    [(.eqEq, .eq), (.notEq, .neq), (.leq, .leq), (.geq, .geq), (.lt, .lt), (.gt, .gt)]
  | .and => [(.and, .and)]
  | .or => [(.or, .or)]

/-- What holds of the tightest level and is passed on from operands holds of all levels. -/
theorem induction {motive : Level → Prop} (unary : motive .unary)
    (step : ∀ l k, operand? l = some k → motive k → motive l) (l : Level) : motive l := by
  have hprod := step .prod .unary rfl unary
  have hsum := step .sum .prod rfl hprod
  have hrel := step .rel .sum rfl hsum
  have hand := step .and .rel rfl hrel
  cases l with
  | unary => exact unary
  | prod => exact hprod
  | sum => exact hsum
  | rel => exact hrel
  | and => exact hand
  | or => exact step .or .and rfl hand

end Level

/-- The nonterminals of the grammar, and below them its bracketed groups. -/
inductive Nonterminal where
  | program | decl | structDecl | varDecl | type | fnDecl | formal | block | stmt
  | exp | level (l : Level) | atom | call | loc
  | dotName | unaryOp | operation (l : Level)
  | many (n : Nonterminal) | list (n : Nonterminal) | next (n : Nonterminal)

namespace Nonterminal

/-- What a derivation from a nonterminal is a tree of. -/
@[reducible]
def Tree : Nonterminal → Type
  | .program => Program
  | .decl | .structDecl | .fnDecl => Decl
  | .varDecl | .formal => VarDecl
  | .type => TypeSpec
  | .block => Block
  | .stmt => Stmt
  | .exp | .level _ | .atom | .call | .loc => Expr
  | .dotName => Ident
  | .unaryOp => UnaryOp
  | .operation _ => BinaryOp × Expr
  | .many n | .list n => List n.Tree
  | .next n => n.Tree

end Nonterminal

/-! ## Trees of groups -/

/-- A location nests to the left. -/
def dots (root : Ident) (fields : List Ident) : Expr :=
  fields.foldl (fun base field => .dot base.pos base field) (.id root.pos root)

/-- Operators with one operand nest to the right. -/
def prefixed (ops : List UnaryOp) (operand : Expr) : Expr :=
  ops.foldr (fun op operand => .unary operand.pos op operand) operand

/-- The operators of one level with two operands fold to the left. -/
def folded (first : Expr) (others : List (BinaryOp × Expr)) : Expr :=
  others.foldl (fun lhs (op, rhs) => .binary lhs.pos op lhs rhs) first

/-! ## Tokens of the productions -/

/-- One given token, or nothing. -/
def Optional (k : Token) (ts : List Lexeme) : Prop :=
  ts = [] ∨ ∃ s, ts = [⟨k, s⟩]

/-- The types that are reserved words. -/
def basicTypes : List (Keyword × TypeSpec) :=
  [(.int_, .int), (.bool_, .bool), (.void_, .void)]

/-- The operators with one operand. -/
def unaryOps : List (Sign × UnaryOp) :=
  [(.minus, .neg), (.not, .not)]

/-- The signs after a location that make a statement of it. -/
def postActions : List (Sign × Action) :=
  [(.plusPlus, .postInc), (.minusMinus, .postDec)]

/-- The signs before a location that make a statement of it. -/
def preActions : List (Sign × Action) :=
  [(.plusPlus, .preInc), (.minusMinus, .preDec)]

/-- The words that begin a loop. -/
def loopWords : List (Keyword × LoopKind) :=
  [(.while_, .whileLoop), (.repeat_, .repeatLoop)]

/-! ## Productions -/

/-- `Derives n ts t`: the lexemes `ts` are derived from `n`, and `t` is the tree of it. -/
inductive Derives : (n : Nonterminal) → List Lexeme → n.Tree → Prop where
  | program (hds : Derives (.many .decl) ts ds) : Derives .program ts ⟨ds⟩
  | declStruct (hd : Derives .structDecl ts d) : Derives .decl ts d
  | declFn (hd : Derives .fnDecl ts d) : Derives .decl ts d
  | declVar (hd : Derives .varDecl ts d) : Derives .decl ts (.var d)
  | structDecl (hfs : Derives (.many .varDecl) ts fs) (hend : Optional (.sign .semicolon) us) :
      Derives .structDecl
        (⟨.keyword .struct_, s₁⟩ :: ⟨.name x, s₂⟩ :: ⟨.sign .lbrace, s₃⟩ ::
          (ts ++ ⟨.sign .rbrace, s₄⟩ :: us))
        (.struct ⟨⟨x, s₂.start⟩, fs⟩)
  | varDecl (hd : Derives .formal ts d) : Derives .varDecl (ts ++ [⟨.sign .semicolon, s⟩]) d
  | basicType (h : (w, t) ∈ basicTypes) : Derives .type [⟨.keyword w, s⟩] t
  | structType (hstart : Optional (.keyword .struct_) ts) :
      Derives .type (ts ++ [⟨.name x, s⟩]) (.struct ⟨x, s.start⟩)
  | fnDecl (hf : Derives .formal ts d) (hfs : Derives (.list .formal) us fs)
      (hb : Derives .block vs b) :
      Derives .fnDecl (ts ++ ⟨.sign .lparen, s₁⟩ :: (us ++ ⟨.sign .rparen, s₂⟩ :: vs))
        (.fn ⟨d.type, d.name, fs, b⟩)
  | formal (ht : Derives .type ts t) :
      Derives .formal (ts ++ [⟨.name x, s⟩]) ⟨t, ⟨x, s.start⟩⟩
  | block (hds : Derives (.many .varDecl) ts ds) (hss : Derives (.many .stmt) us ss) :
      Derives .block (⟨.sign .lbrace, s₁⟩ :: (ts ++ (us ++ [⟨.sign .rbrace, s₂⟩]))) (.mk ds ss)
  -- statements
  | assignStmt (hl : Derives .loc ts lhs) (he : Derives .exp us rhs) :
      Derives .stmt (ts ++ ⟨.sign .assign, s₁⟩ :: (us ++ [⟨.sign .semicolon, s₂⟩]))
        (.act .assign (.assign lhs.pos lhs rhs))
  | postStmt (h : (m, a) ∈ postActions) (hl : Derives .loc ts e) :
      Derives .stmt (ts ++ [⟨.sign m, s₁⟩, ⟨.sign .semicolon, s₂⟩]) (.act a e)
  | preStmt (h : (m, a) ∈ preActions) (hl : Derives .loc ts e) :
      Derives .stmt (⟨.sign m, s₁⟩ :: (ts ++ [⟨.sign .semicolon, s₂⟩])) (.act a e)
  | readStmt (hl : Derives .loc ts e) :
      Derives .stmt
        (⟨.keyword .cin_, s₁⟩ :: ⟨.sign .read, s₂⟩ :: (ts ++ [⟨.sign .semicolon, s₃⟩]))
        (.act .read e)
  | writeStmt (he : Derives .exp ts e) :
      Derives .stmt
        (⟨.keyword .cout_, s₁⟩ :: ⟨.sign .write, s₂⟩ :: (ts ++ [⟨.sign .semicolon, s₃⟩]))
        (.act .write e)
  | ifThen (he : Derives .exp ts e) (hb : Derives .block us b) :
      Derives .stmt
        (⟨.keyword .if_, s₁⟩ :: ⟨.sign .lparen, s₂⟩ :: (ts ++ ⟨.sign .rparen, s₃⟩ :: us))
        (.ifThen e b)
  | ifElse (he : Derives .exp ts e) (hb : Derives .block us b) (hb' : Derives .block vs b') :
      Derives .stmt
        (⟨.keyword .if_, s₁⟩ :: ⟨.sign .lparen, s₂⟩ ::
          (ts ++ ⟨.sign .rparen, s₃⟩ :: (us ++ ⟨.keyword .else_, s₄⟩ :: vs)))
        (.ifElse e b b')
  | loopStmt (h : (w, k) ∈ loopWords) (he : Derives .exp ts e) (hb : Derives .block us b) :
      Derives .stmt
        (⟨.keyword w, s₁⟩ :: ⟨.sign .lparen, s₂⟩ :: (ts ++ ⟨.sign .rparen, s₃⟩ :: us))
        (.loop k e b)
  | callStmt (he : Derives .call ts e) :
      Derives .stmt (ts ++ [⟨.sign .semicolon, s⟩]) (.act .call e)
  | returnStmt :
      Derives .stmt [⟨.keyword .return_, s₁⟩, ⟨.sign .semicolon, s₂⟩] (.ret none)
  | returnValue (he : Derives .exp ts e) :
      Derives .stmt (⟨.keyword .return_, s₁⟩ :: (ts ++ [⟨.sign .semicolon, s₂⟩])) (.ret (some e))
  -- expressions
  | assign (hl : Derives .loc ts lhs) (he : Derives .exp us rhs) :
      Derives .exp (ts ++ ⟨.sign .assign, s⟩ :: us) (.assign lhs.pos lhs rhs)
  | or (he : Derives (.level .or) ts e) : Derives .exp ts e
  | level (hk : l.operand? = some k) (he : Derives (.level k) ts e)
      (hos : Derives (.many (.operation l)) us os) :
      Derives (.level l) (ts ++ us) (folded e os)
  | operation (h : (m, op) ∈ l.ops) (hk : l.operand? = some k) (he : Derives (.level k) ts e) :
      Derives (.operation l) (⟨.sign m, s⟩ :: ts) (op, e)
  | unary (hos : Derives (.many .unaryOp) ts ops) (he : Derives .atom us e) :
      Derives (.level .unary) (ts ++ us) (prefixed ops e)
  | unaryOp (h : (m, op) ∈ unaryOps) : Derives .unaryOp [⟨.sign m, s⟩] op
  | atomCall (he : Derives .call ts e) : Derives .atom ts e
  | atomInt : Derives .atom [⟨.int v, s⟩] (.int s.start v)
  | atomStr : Derives .atom [⟨.str raw, s⟩] (.str s.start raw)
  | atomTrue : Derives .atom [⟨.keyword .true_, s⟩] (.bool s.start true)
  | atomFalse : Derives .atom [⟨.keyword .false_, s⟩] (.bool s.start false)
  | atomLoc (he : Derives .loc ts e) : Derives .atom ts e
  | atomParen (he : Derives .exp ts e) :
      Derives .atom (⟨.sign .lparen, s₁⟩ :: (ts ++ [⟨.sign .rparen, s₂⟩])) e
  | call (has : Derives (.list .exp) ts as) :
      Derives .call
        (⟨.name x, s₁⟩ :: ⟨.sign .lparen, s₂⟩ :: (ts ++ [⟨.sign .rparen, s₃⟩]))
        (.call s₁.start ⟨x, s₁.start⟩ as)
  | loc (hfs : Derives (.many .dotName) ts fs) :
      Derives .loc (⟨.name x, s⟩ :: ts) (dots ⟨x, s.start⟩ fs)
  | dotName : Derives .dotName [⟨.sign .dot, s₁⟩, ⟨.name x, s₂⟩] ⟨x, s₂.start⟩
  -- repetitions and lists
  | manyNil : Derives (.many n) [] []
  | manyCons (h : Derives n ts t) (hs : Derives (.many n) us rest) :
      Derives (.many n) (ts ++ us) (t :: rest)
  | listNil : Derives (.list n) [] []
  | listCons (h : Derives n ts t) (hs : Derives (.many (.next n)) us rest) :
      Derives (.list n) (ts ++ us) (t :: rest)
  | next (h : Derives n ts t) : Derives (.next n) (⟨.sign .comma, s⟩ :: ts) t

end NameCheck.Grammar
