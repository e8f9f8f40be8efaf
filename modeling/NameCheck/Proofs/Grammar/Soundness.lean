import NameCheck.Grammar.Program
import NameCheck.Proofs.Grammar.Derives
import NameCheck.Proofs.Grammar.Reads

/-!
# What is read is derived

Whatever a parser of the language reads off the front of some lexemes is derived from its
nonterminal, with the value that was read as its tree.
-/

namespace NameCheck.Parser

variable {α : Type}

/-- Whatever `p` reads is related by `G` to the value that it is read as. -/
def Sound (p : Parser α) (G : List Lexeme → α → Prop) : Prop :=
  ∀ ts a us, Reads p ts a us → ∃ xs, ts = xs ++ us ∧ G xs a

/-- A recursive parser is sound if its body is, given a sound inner parser. -/
theorem sound_recursive {G : List Lexeme → α → Prop} {body : Parser α → Parser α}
    (h : ∀ p, Sound p G → Sound (body p) G) : Sound (recursive body) G := by
  have hall : ∀ i a us missed, recursive body i = .done a (.of us) missed →
      ∃ xs, i.rest = xs ++ us ∧ G xs a := by
    intro i
    refine recursive_induction (Q := fun i out => ∀ a us missed, out = .done a (.of us) missed →
      ∃ xs, i.rest = xs ++ us ∧ G xs a) ?_ ?_ i
    · intro j a us missed hd
      cases hd
    · intro p hp i a us missed hd
      refine h p ?_ i.rest a us ⟨missed, by rw [Input.of_rest, hd]⟩
      intro ts b vs hread
      obtain ⟨missed', hread⟩ := hread
      exact hp (.of ts) b vs missed' hread
  intro ts a us hread
  obtain ⟨missed, hread⟩ := hread
  exact hall (.of ts) a us missed hread

end NameCheck.Parser

namespace NameCheck.Grammar

open NameCheck.Parser

variable {α : Type} {ts us vs : List Lexeme}

/-! ## Small parsers -/

@[simp]
theorem reads_sign {m : Sign} {u : Unit} :
    Reads (sign m) ts u us ↔ ∃ s, ts = ⟨.sign m, s⟩ :: us :=
  reads_token

@[simp]
theorem reads_keyword {w : Keyword} {u : Unit} :
    Reads (keyword w) ts u us ↔ ∃ s, ts = ⟨.keyword w, s⟩ :: us :=
  reads_token

@[simp]
theorem reads_ident {id : Ident} :
    Reads ident ts id us ↔ ∃ x s, ts = ⟨.name x, s⟩ :: us ∧ id = ⟨x, s.start⟩ := by
  rw [ident, reads_select]
  constructor
  · rintro ⟨⟨k, s⟩, rfl, h⟩
    cases k with
    | name x => exact ⟨x, s, rfl, (Option.some.inj h).symm⟩
    | _ => cases h
  · rintro ⟨x, s, rfl, rfl⟩
    exact ⟨_, rfl, rfl⟩

theorem reads_sign_cons {m : Sign} {span : Span} :
    Reads (sign m) (⟨.sign m, span⟩ :: us) () us :=
  reads_sign.mpr ⟨span, rfl⟩

theorem reads_keyword_cons {w : Keyword} {span : Span} :
    Reads (keyword w) (⟨.keyword w, span⟩ :: us) () us :=
  reads_keyword.mpr ⟨span, rfl⟩

theorem reads_ident_cons {x : String} {span : Span} :
    Reads ident (⟨.name x, span⟩ :: us) ⟨x, span.start⟩ us :=
  reads_ident.mpr ⟨x, span, rfl, rfl⟩

@[simp]
theorem reads_operator {m : Sign} {op a : α} :
    Reads (operator m op) ts a us ↔ a = op ∧ ∃ s, ts = ⟨.sign m, s⟩ :: us := by
  simp only [operator, reads_bind, reads_sign, reads_pure]
  constructor
  · rintro ⟨_, vs, ⟨s, rfl⟩, rfl, rfl⟩
    exact ⟨rfl, s, rfl⟩
  · rintro ⟨rfl, s, rfl⟩
    exact ⟨(), us, ⟨s, rfl⟩, rfl, rfl⟩

@[simp]
theorem reads_between {o c : Sign} {p : Parser α} {a : α} :
    Reads (between o c p) ts a us ↔
      ∃ s₁ vs s₂, ts = ⟨.sign o, s₁⟩ :: vs ∧ Reads p vs a (⟨.sign c, s₂⟩ :: us) := by
  simp only [between, reads_bind, reads_sign, reads_pure]
  constructor
  · rintro ⟨_, vs, ⟨s₁, rfl⟩, b, ws, hp, _, _, ⟨s₂, rfl⟩, rfl, rfl⟩
    exact ⟨s₁, vs, s₂, rfl, hp⟩
  · rintro ⟨s₁, vs, s₂, rfl, hp⟩
    exact ⟨(), vs, ⟨s₁, rfl⟩, a, _, hp, (), us, ⟨s₂, rfl⟩, rfl, rfl⟩

/-! ## Choices of operators -/

/-- `p` reads one sign of a table as what stands beside it. -/
def ReadsOneOf (p : Parser α) (table : List (Sign × α)) : Prop :=
  ∀ ts a us, Reads p ts a us ↔ ∃ m s, (m, a) ∈ table ∧ ts = ⟨.sign m, s⟩ :: us

theorem readsOneOf_operator (m : Sign) (op : α) : ReadsOneOf (operator m op) [(m, op)] := by
  intro ts a us
  simp only [reads_operator, List.mem_singleton, Prod.mk.injEq]
  constructor
  · rintro ⟨rfl, s, rfl⟩
    exact ⟨m, s, ⟨rfl, rfl⟩, rfl⟩
  · rintro ⟨_, s, ⟨rfl, rfl⟩, rfl⟩
    exact ⟨rfl, s, rfl⟩

theorem fails_operator {m : Sign} {op : α} {t : Lexeme} (h : t.token ≠ .sign m) :
    Fails (operator m op) (t :: ts) :=
  fails_bind_of_fails (fails_token_cons.mpr h)

/-- A choice reads the signs of both sides, if the first side does not hide one of the second. -/
theorem readsOneOf_orElse {m : Sign} {op : α} {q : Parser α} {table : List (Sign × α)}
    (h : ReadsOneOf q table) (hm : ∀ entry ∈ table, entry.1 ≠ m) :
    ReadsOneOf (operator m op <|> q) ((m, op) :: table) := by
  intro ts a us
  rw [reads_orElse, readsOneOf_operator m op, h]
  constructor
  · rintro (⟨n, s, hn, rfl⟩ | ⟨-, n, s, hn, rfl⟩)
    · exact ⟨n, s, List.mem_cons.mpr (Or.inl (List.mem_singleton.mp hn)), rfl⟩
    · exact ⟨n, s, List.mem_cons_of_mem _ hn, rfl⟩
  · rintro ⟨n, s, hn, rfl⟩
    rcases List.mem_cons.mp hn with hn | hn
    · exact Or.inl ⟨n, s, List.mem_singleton.mpr hn, rfl⟩
    · refine Or.inr ⟨fails_operator ?_, n, s, hn, rfl⟩
      intro heq
      exact hm _ hn (Token.sign.inj heq)

/-- Reads an operator with two operands of a level. -/
def Level.operator : Level → Parser BinaryOp
  | .unary => select fun _ => none
  | .prod => Grammar.operator .star .mul <|> Grammar.operator .slash .div
  | .sum => Grammar.operator .plus .add <|> Grammar.operator .minus .sub
  | .rel =>
    Grammar.operator .eqEq .eq <|> Grammar.operator .notEq .neq <|> Grammar.operator .leq .leq <|>
      Grammar.operator .geq .geq <|> Grammar.operator .lt .lt <|> Grammar.operator .gt .gt
  | .and => Grammar.operator .and .and
  | .or => Grammar.operator .or .or

theorem readsOneOf_levelOperator (l : Level) : ReadsOneOf l.operator l.ops := by
  cases l with
  | unary => intro ts a us; simp [Level.operator, Level.ops]
  | prod => exact readsOneOf_orElse (readsOneOf_operator _ _) (by decide)
  | sum => exact readsOneOf_orElse (readsOneOf_operator _ _) (by decide)
  | rel =>
      refine readsOneOf_orElse (readsOneOf_orElse (readsOneOf_orElse (readsOneOf_orElse
        (readsOneOf_orElse (readsOneOf_operator _ _) ?_) ?_) ?_) ?_) ?_ <;> decide
  | and => exact readsOneOf_operator _ _
  | or => exact readsOneOf_operator _ _

theorem readsOneOf_unaryOp :
    ReadsOneOf (operator .minus UnaryOp.neg <|> operator .not UnaryOp.not) unaryOps :=
  readsOneOf_orElse (readsOneOf_operator _ _) (by decide)

/-! ## Repetitions and lists -/

theorem sound_many {n : Nonterminal} {p : Parser n.Tree} (h : Sound p (Derives n)) :
    Sound (many p) (Derives (.many n)) := by
  intro ts as vs hread
  induction hlen : ts.length using Nat.strongRecOn generalizing ts as with
  | ind k ih =>
      rcases hread.many_cases with ⟨rfl, rfl, -⟩ | ⟨a, us, bs, rfl, ha, hlt, hs⟩ | ⟨a, rfl, ha⟩
      · exact ⟨[], rfl, .manyNil⟩
      · obtain ⟨xs, rfl, hxs⟩ := h _ _ _ ha
        obtain ⟨ys, rfl, hys⟩ := ih us.length (hlen ▸ hlt) _ _ hs rfl
        exact ⟨xs ++ ys, (List.append_assoc _ _ _).symm, .manyCons hxs hys⟩
      · obtain ⟨xs, rfl, hxs⟩ := h _ _ _ ha
        exact ⟨xs ++ [], by simp, .manyCons hxs .manyNil⟩

theorem sound_next {n : Nonterminal} {p : Parser n.Tree} (h : Sound p (Derives n)) :
    Sound (do sign .comma; p) (Derives (.next n)) := by
  intro ts a us hread
  simp only [reads_bind, reads_sign] at hread
  obtain ⟨_, vs, ⟨s, rfl⟩, ha⟩ := hread
  obtain ⟨xs, rfl, hxs⟩ := h _ _ _ ha
  exact ⟨⟨.sign .comma, s⟩ :: xs, rfl, .next hxs⟩

theorem sound_sepBy {n : Nonterminal} {p : Parser n.Tree} (h : Sound p (Derives n)) :
    Sound (sepBy p (sign .comma)) (Derives (.list n)) := by
  intro ts as us hread
  simp only [sepBy, reads_bind, reads_optional, reads_pure] at hread
  obtain ⟨_, _, ⟨_, rfl, a, vs, ha, bs, _, hbs, rfl, rfl⟩ | ⟨rfl, rfl, -⟩, rfl, rfl⟩ := hread
  · obtain ⟨xs, rfl, hxs⟩ := h _ _ _ ha
    obtain ⟨ys, rfl, hys⟩ := sound_many (n := .next n) (sound_next h) _ _ _ hbs
    exact ⟨xs ++ ys, (List.append_assoc _ _ _).symm, .listCons hxs hys⟩
  · exact ⟨[], rfl, .listNil⟩

/-! ## Expressions -/

theorem sound_dotName : Sound (do sign .dot; ident) (Derives .dotName) := by
  intro ts id us hread
  simp only [reads_bind, reads_sign, reads_ident] at hread
  obtain ⟨_, _, ⟨s₁, rfl⟩, x, s₂, rfl, rfl⟩ := hread
  exact ⟨[⟨.sign .dot, s₁⟩, ⟨.name x, s₂⟩], rfl, .dotName⟩

theorem sound_location : Sound location (Derives .loc) := by
  intro ts e us hread
  simp only [location, reads_bind, reads_ident, reads_pure] at hread
  obtain ⟨_, _, ⟨x, s, rfl, rfl⟩, fs, _, hfs, rfl, rfl⟩ := hread
  obtain ⟨xs, rfl, hxs⟩ := sound_many (n := .dotName) sound_dotName _ _ _ hfs
  exact ⟨⟨.name x, s⟩ :: xs, rfl, .loc hxs⟩

section Expr

variable {expr : Parser Expr} (h : Sound expr (Derives .exp))
include h

theorem sound_call : Sound (call expr) (Derives .call) := by
  intro ts e us hread
  simp only [call, reads_bind, reads_ident, reads_between, reads_pure] at hread
  obtain ⟨_, _, ⟨x, s₁, rfl, rfl⟩, as, _, ⟨s₂, vs, s₃, rfl, has⟩, rfl, rfl⟩ := hread
  obtain ⟨xs, rfl, hxs⟩ := sound_sepBy (n := .exp) h _ _ _ has
  exact ⟨⟨.name x, s₁⟩ :: ⟨.sign .lparen, s₂⟩ :: (xs ++ [⟨.sign .rparen, s₃⟩]), by simp,
    .call hxs⟩

end Expr

theorem sound_unaryOp :
    Sound (operator .minus UnaryOp.neg <|> operator .not UnaryOp.not) (Derives .unaryOp) := by
  intro ts op us hread
  obtain ⟨m, s, hm, rfl⟩ := (readsOneOf_unaryOp _ _ _).mp hread
  exact ⟨[⟨.sign m, s⟩], rfl, .unaryOp hm⟩

theorem sound_literal : Sound literal (Derives .atom) := by
  intro ts e us hread
  rw [literal, reads_select] at hread
  obtain ⟨⟨k, s⟩, rfl, he⟩ := hread
  refine ⟨[⟨k, s⟩], rfl, ?_⟩
  cases k with
  | int v => cases he; exact .atomInt
  | str raw => cases he; exact .atomStr
  | keyword w =>
      cases w with
      | true_ => cases he; exact .atomTrue
      | false_ => cases he; exact .atomFalse
      | _ => cases he
  | _ => cases he

section Levels

variable {expr : Parser Expr} (h : Sound expr (Derives .exp))
include h

theorem sound_atom : Sound (atom expr) (Derives .atom) := by
  intro ts e us hread
  simp only [atom, reads_orElse, reads_between] at hread
  rcases hread with hc | ⟨-, hl | ⟨-, hl | ⟨-, s₁, vs, s₂, rfl, he⟩⟩⟩
  · obtain ⟨xs, rfl, hxs⟩ := sound_call h _ _ _ hc
    exact ⟨xs, rfl, .atomCall hxs⟩
  · exact sound_literal _ _ _ hl
  · obtain ⟨xs, rfl, hxs⟩ := sound_location _ _ _ hl
    exact ⟨xs, rfl, .atomLoc hxs⟩
  · obtain ⟨xs, rfl, hxs⟩ := h _ _ _ he
    exact ⟨⟨.sign .lparen, s₁⟩ :: (xs ++ [⟨.sign .rparen, s₂⟩]), by simp, .atomParen hxs⟩

theorem sound_unary : Sound (unary expr) (Derives (.level .unary)) := by
  intro ts e us hread
  simp only [unary, reads_bind, reads_pure] at hread
  obtain ⟨ops, _, hops, operand, _, he, rfl, rfl⟩ := hread
  obtain ⟨xs, rfl, hxs⟩ := sound_many (n := .unaryOp) sound_unaryOp _ _ _ hops
  obtain ⟨ys, rfl, hys⟩ := sound_atom h _ _ _ he
  exact ⟨xs ++ ys, (List.append_assoc _ _ _).symm, .unary hxs hys⟩

/-- The parser of a level. -/
def Level.parser (expr : Parser Expr) : Level → Parser Expr
  | .unary => Grammar.unary expr
  | .prod => product expr
  | .sum => Grammar.sum expr
  | .rel => relation expr
  | .and => conjunction expr
  | .or => disjunction expr

omit h in
theorem Level.parser_eq {l k : Level} (hk : l.operand? = some k) :
    l.parser expr = leftAssoc (k.parser expr) l.operator := by
  cases l <;> cases hk <;> rfl

/-- An operator of a level with its right operand. -/
def Level.operation (l : Level) (expr : Parser Expr) : Parser (BinaryOp × Expr) :=
  match l.operand? with
  | some k => do
    let op ← l.operator
    let rhs ← k.parser expr
    return (op, rhs)
  | none => select fun _ => none

omit h in
theorem Level.operation_eq {l k : Level} (hk : l.operand? = some k) :
    l.operation expr = (do
      let op ← l.operator
      let rhs ← k.parser expr
      return (op, rhs)) := by
  rw [Level.operation, hk]

omit h in
theorem sound_operation {l : Level}
    (h : ∀ k, l.operand? = some k → Sound (k.parser expr) (Derives (.level k))) :
    Sound (l.operation expr) (Derives (.operation l)) := by
  intro ts op us hread
  cases hk : l.operand? with
  | none => simp [Level.operation, hk] at hread
  | some k =>
      simp only [Level.operation_eq hk, reads_bind, reads_pure,
        readsOneOf_levelOperator l _ _ _] at hread
      obtain ⟨op, _, ⟨m, s, hm, rfl⟩, rhs, _, he, rfl, rfl⟩ := hread
      obtain ⟨xs, rfl, hxs⟩ := h k hk _ _ _ he
      exact ⟨⟨.sign m, s⟩ :: xs, rfl, .operation hm hk hxs⟩

theorem sound_level (l : Level) : Sound (l.parser expr) (Derives (.level l)) := by
  induction l using Level.induction with
  | unary => exact sound_unary h
  | step l k hk ih =>
      have hop : Sound (l.operation expr) (Derives (.operation l)) := by
        refine sound_operation fun k' hk' => ?_
        cases hk.symm.trans hk'
        exact ih
      rw [Level.operation_eq hk] at hop
      intro ts e us hread
      rw [Level.parser_eq hk] at hread
      simp only [leftAssoc, reads_bind, reads_pure] at hread
      obtain ⟨first, _, hfirst, others, _, hothers, rfl, rfl⟩ := hread
      obtain ⟨xs, rfl, hxs⟩ := ih _ _ _ hfirst
      obtain ⟨ys, rfl, hys⟩ := sound_many (n := .operation l) hop _ _ _ hothers
      exact ⟨xs ++ ys, (List.append_assoc _ _ _).symm, .level hk hxs hys⟩

theorem sound_assignment :
    Sound (assignment expr) fun ts e =>
      ∃ xs lhs s ys rhs, ts = xs ++ ⟨.sign .assign, s⟩ :: ys ∧ e = .assign lhs.pos lhs rhs ∧
        Derives .loc xs lhs ∧ Derives .exp ys rhs := by
  intro ts e us hread
  simp only [assignment, reads_bind, reads_sign, reads_pure] at hread
  obtain ⟨lhs, _, hl, _, _, ⟨s, rfl⟩, rhs, _, hr, rfl, rfl⟩ := hread
  obtain ⟨xs, rfl, hxs⟩ := sound_location _ _ _ hl
  obtain ⟨ys, rfl, hys⟩ := h _ _ _ hr
  exact ⟨xs ++ ⟨.sign .assign, s⟩ :: ys, by simp, xs, lhs, s, ys, rhs, rfl, rfl, hxs, hys⟩

theorem sound_exprWith : Sound (exprWith expr) (Derives .exp) := by
  intro ts e us hread
  simp only [exprWith, reads_orElse] at hread
  rcases hread with ha | ⟨-, hd⟩
  · obtain ⟨_, rfl, xs, lhs, s, ys, rhs, rfl, rfl, hxs, hys⟩ := sound_assignment h _ _ _ ha
    exact ⟨_, rfl, .assign hxs hys⟩
  · obtain ⟨xs, rfl, hxs⟩ := sound_level h .or _ _ _ hd
    exact ⟨xs, rfl, .or hxs⟩

end Levels

theorem sound_expr : Sound expr (Derives .exp) :=
  sound_recursive fun _ h => sound_exprWith h

/-! ## Declarations of names -/

theorem sound_typeSpec : Sound typeSpec (Derives .type) := by
  intro ts t us hread
  simp only [typeSpec, basicType, structType, reads_orElse, reads_select, reads_bind,
    reads_optional, reads_keyword, reads_ident, reads_pure] at hread
  rcases hread with ⟨⟨k, s⟩, rfl, ht⟩ | ⟨-, start, ws, hstart, _, _, ⟨x, s, rfl, rfl⟩, rfl, rfl⟩
  · refine ⟨[⟨k, s⟩], rfl, ?_⟩
    cases k with
    | keyword w =>
        cases w with
        | int_ => cases ht; exact .basicType (by decide)
        | bool_ => cases ht; exact .basicType (by decide)
        | void_ => cases ht; exact .basicType (by decide)
        | _ => cases ht
    | _ => cases ht
  · rcases hstart with ⟨_, -, s', rfl⟩ | ⟨-, rfl, -⟩
    · exact ⟨[⟨.keyword .struct_, s'⟩, ⟨.name x, s⟩], rfl, .structType (Or.inr ⟨s', rfl⟩)⟩
    · exact ⟨[⟨.name x, s⟩], rfl, .structType (Or.inl rfl)⟩

theorem sound_formal : Sound formal (Derives .formal) := by
  intro ts d us hread
  simp only [formal, reads_bind, reads_ident, reads_pure] at hread
  obtain ⟨t, _, ht, _, _, ⟨x, s, rfl, rfl⟩, rfl, rfl⟩ := hread
  obtain ⟨xs, rfl, hxs⟩ := sound_typeSpec _ _ _ ht
  exact ⟨xs ++ [⟨.name x, s⟩], by simp, .formal hxs⟩

theorem sound_varDecl : Sound varDecl (Derives .varDecl) := by
  intro ts d us hread
  simp only [varDecl, reads_bind, reads_sign, reads_pure] at hread
  obtain ⟨d, _, hd, _, _, ⟨s, rfl⟩, rfl, rfl⟩ := hread
  obtain ⟨xs, rfl, hxs⟩ := sound_formal _ _ _ hd
  exact ⟨xs ++ [⟨.sign .semicolon, s⟩], by simp, .varDecl hxs⟩

/-! ## Statements -/

theorem sound_assignStmt : Sound assignStmt (Derives .stmt) := by
  intro ts st us hread
  simp only [assignStmt, reads_bind, reads_sign, reads_pure] at hread
  obtain ⟨e, _, he, _, _, ⟨s₂, rfl⟩, rfl, rfl⟩ := hread
  obtain ⟨_, rfl, xs, lhs, s₁, ys, rhs, rfl, rfl, hxs, hys⟩ := sound_assignment sound_expr _ _ _ he
  exact ⟨xs ++ ⟨.sign .assign, s₁⟩ :: (ys ++ [⟨.sign .semicolon, s₂⟩]), by simp,
    .assignStmt hxs hys⟩

theorem sound_postStmt {m : Sign} {a : Action} (h : (m, a) ∈ postActions) :
    Sound (postStmt m a) (Derives .stmt) := by
  intro ts st us hread
  simp only [postStmt, reads_bind, reads_sign, reads_pure] at hread
  obtain ⟨e, _, he, _, _, ⟨s₁, rfl⟩, _, _, ⟨s₂, rfl⟩, rfl, rfl⟩ := hread
  obtain ⟨xs, rfl, hxs⟩ := sound_location _ _ _ he
  exact ⟨xs ++ [⟨.sign m, s₁⟩, ⟨.sign .semicolon, s₂⟩], by simp, .postStmt h hxs⟩

theorem sound_preStmt {m : Sign} {a : Action} (h : (m, a) ∈ preActions) :
    Sound (preStmt m a) (Derives .stmt) := by
  intro ts st us hread
  simp only [preStmt, reads_bind, reads_sign, reads_pure] at hread
  obtain ⟨_, _, ⟨s₁, rfl⟩, e, _, he, _, _, ⟨s₂, rfl⟩, rfl, rfl⟩ := hread
  obtain ⟨xs, rfl, hxs⟩ := sound_location _ _ _ he
  exact ⟨⟨.sign m, s₁⟩ :: (xs ++ [⟨.sign .semicolon, s₂⟩]), by simp, .preStmt h hxs⟩

theorem sound_readStmt : Sound readStmt (Derives .stmt) := by
  intro ts st us hread
  simp only [readStmt, reads_bind, reads_sign, reads_keyword, reads_pure] at hread
  obtain ⟨_, _, ⟨s₁, rfl⟩, _, _, ⟨s₂, rfl⟩, e, _, he, _, _, ⟨s₃, rfl⟩, rfl, rfl⟩ := hread
  obtain ⟨xs, rfl, hxs⟩ := sound_location _ _ _ he
  exact ⟨⟨.keyword .cin_, s₁⟩ :: ⟨.sign .read, s₂⟩ :: (xs ++ [⟨.sign .semicolon, s₃⟩]), by simp,
    .readStmt hxs⟩

theorem sound_writeStmt : Sound writeStmt (Derives .stmt) := by
  intro ts st us hread
  simp only [writeStmt, reads_bind, reads_sign, reads_keyword, reads_pure] at hread
  obtain ⟨_, _, ⟨s₁, rfl⟩, _, _, ⟨s₂, rfl⟩, e, _, he, _, _, ⟨s₃, rfl⟩, rfl, rfl⟩ := hread
  obtain ⟨xs, rfl, hxs⟩ := sound_expr _ _ _ he
  exact ⟨⟨.keyword .cout_, s₁⟩ :: ⟨.sign .write, s₂⟩ :: (xs ++ [⟨.sign .semicolon, s₃⟩]),
    by simp, .writeStmt hxs⟩

theorem sound_callStmt : Sound callStmt (Derives .stmt) := by
  intro ts st us hread
  simp only [callStmt, reads_bind, reads_sign, reads_pure] at hread
  obtain ⟨e, _, he, _, _, ⟨s, rfl⟩, rfl, rfl⟩ := hread
  obtain ⟨xs, rfl, hxs⟩ := sound_call sound_expr _ _ _ he
  exact ⟨xs ++ [⟨.sign .semicolon, s⟩], by simp, .callStmt hxs⟩

theorem sound_returnStmt : Sound returnStmt (Derives .stmt) := by
  intro ts st us hread
  simp only [returnStmt, reads_bind, reads_sign, reads_keyword, reads_optional, reads_pure]
    at hread
  obtain ⟨_, _, ⟨s₁, rfl⟩, value, _, hvalue, _, _, ⟨s₂, rfl⟩, rfl, rfl⟩ := hread
  rcases hvalue with ⟨e, rfl, he⟩ | ⟨rfl, rfl, -⟩
  · obtain ⟨xs, rfl, hxs⟩ := sound_expr _ _ _ he
    exact ⟨⟨.keyword .return_, s₁⟩ :: (xs ++ [⟨.sign .semicolon, s₂⟩]), by simp,
      .returnValue hxs⟩
  · exact ⟨[⟨.keyword .return_, s₁⟩, ⟨.sign .semicolon, s₂⟩], rfl, .returnStmt⟩

section Block

variable {block : Parser Block} (h : Sound block (Derives .block))
include h

theorem sound_ifStmt : Sound (ifStmt block) (Derives .stmt) := by
  intro ts st us hread
  simp only [ifStmt, condition, reads_bind, reads_keyword, reads_between, reads_optional,
    reads_pure] at hread
  obtain ⟨_, _, ⟨s₁, rfl⟩, e, _, ⟨s₂, _, s₃, rfl, he⟩, b, _, hb, else?, _, helse, rfl, rfl⟩ := hread
  obtain ⟨xs, rfl, hxs⟩ := sound_expr _ _ _ he
  obtain ⟨ys, rfl, hys⟩ := h _ _ _ hb
  rcases helse with ⟨b', rfl, _, _, ⟨s₄, rfl⟩, hb'⟩ | ⟨rfl, rfl, -⟩
  · obtain ⟨zs, rfl, hzs⟩ := h _ _ _ hb'
    exact ⟨⟨.keyword .if_, s₁⟩ :: ⟨.sign .lparen, s₂⟩ ::
      (xs ++ ⟨.sign .rparen, s₃⟩ :: (ys ++ ⟨.keyword .else_, s₄⟩ :: zs)), by simp,
      .ifElse hxs hys hzs⟩
  · exact ⟨⟨.keyword .if_, s₁⟩ :: ⟨.sign .lparen, s₂⟩ :: (xs ++ ⟨.sign .rparen, s₃⟩ :: ys),
      by simp, .ifThen hxs hys⟩

theorem sound_loopStmt {w : Keyword} {k : LoopKind} (hw : (w, k) ∈ loopWords) :
    Sound (loopStmt w k block) (Derives .stmt) := by
  intro ts st us hread
  simp only [loopStmt, condition, reads_bind, reads_keyword, reads_between, reads_pure] at hread
  obtain ⟨_, _, ⟨s₁, rfl⟩, e, _, ⟨s₂, _, s₃, rfl, he⟩, b, _, hb, rfl, rfl⟩ := hread
  obtain ⟨xs, rfl, hxs⟩ := sound_expr _ _ _ he
  obtain ⟨ys, rfl, hys⟩ := h _ _ _ hb
  exact ⟨⟨.keyword w, s₁⟩ :: ⟨.sign .lparen, s₂⟩ :: (xs ++ ⟨.sign .rparen, s₃⟩ :: ys), by simp,
    .loopStmt hw hxs hys⟩

theorem sound_stmtWith : Sound (stmtWith block) (Derives .stmt) := by
  intro ts st us hread
  simp only [stmtWith, reads_orElse] at hread
  rcases hread with hr | ⟨-, hr | ⟨-, hr | ⟨-, hr | ⟨-, hr | ⟨-, hr | ⟨-, hr | ⟨-, hr | ⟨-, hr |
    ⟨-, hr | ⟨-, hr | ⟨-, hr⟩⟩⟩⟩⟩⟩⟩⟩⟩⟩⟩
  · exact sound_assignStmt _ _ _ hr
  · exact sound_postStmt (by decide) _ _ _ hr
  · exact sound_postStmt (by decide) _ _ _ hr
  · exact sound_preStmt (by decide) _ _ _ hr
  · exact sound_preStmt (by decide) _ _ _ hr
  · exact sound_readStmt _ _ _ hr
  · exact sound_writeStmt _ _ _ hr
  · exact sound_ifStmt h _ _ _ hr
  · exact sound_loopStmt h (by decide) _ _ _ hr
  · exact sound_loopStmt h (by decide) _ _ _ hr
  · exact sound_callStmt _ _ _ hr
  · exact sound_returnStmt _ _ _ hr

theorem sound_blockWith : Sound (blockWith block) (Derives .block) := by
  intro ts b us hread
  simp only [blockWith, reads_between, reads_bind, reads_pure] at hread
  obtain ⟨s₁, _, s₂, rfl, ds, _, hds, ss, _, hss, rfl, rfl⟩ := hread
  obtain ⟨xs, rfl, hxs⟩ := sound_many (n := .varDecl) sound_varDecl _ _ _ hds
  obtain ⟨ys, rfl, hys⟩ := sound_many (n := .stmt) (sound_stmtWith h) _ _ _ hss
  exact ⟨⟨.sign .lbrace, s₁⟩ :: (xs ++ (ys ++ [⟨.sign .rbrace, s₂⟩])), by simp, .block hxs hys⟩

end Block

theorem sound_block : Sound block (Derives .block) :=
  sound_recursive fun _ h => sound_blockWith h

/-! ## Programs -/

theorem sound_structDecl : Sound structDecl (Derives .structDecl) := by
  intro ts d us hread
  simp only [structDecl, reads_bind, reads_keyword, reads_ident, reads_between, reads_optional,
    reads_sign, reads_pure] at hread
  obtain ⟨_, _, ⟨s₁, rfl⟩, _, _, ⟨x, s₂, rfl, rfl⟩, fs, _, ⟨s₃, _, s₄, rfl, hfs⟩, semicolon?, _,
    hsemicolon, rfl, rfl⟩ := hread
  obtain ⟨xs, rfl, hxs⟩ := sound_many (n := .varDecl) sound_varDecl _ _ _ hfs
  rcases hsemicolon with ⟨_, -, s, rfl⟩ | ⟨-, rfl, -⟩
  · exact ⟨⟨.keyword .struct_, s₁⟩ :: ⟨.name x, s₂⟩ :: ⟨.sign .lbrace, s₃⟩ ::
      (xs ++ ⟨.sign .rbrace, s₄⟩ :: [⟨.sign .semicolon, s⟩]), by simp,
      .structDecl hxs (Or.inr ⟨s, rfl⟩)⟩
  · exact ⟨⟨.keyword .struct_, s₁⟩ :: ⟨.name x, s₂⟩ :: ⟨.sign .lbrace, s₃⟩ ::
      (xs ++ ⟨.sign .rbrace, s₄⟩ :: []), by simp, .structDecl hxs (Or.inl rfl)⟩

theorem sound_fnDecl : Sound fnDecl (Derives .fnDecl) := by
  intro ts d us hread
  simp only [fnDecl, reads_bind, reads_between, reads_pure] at hread
  obtain ⟨⟨t, id⟩, _, hf, fs, _, ⟨s₁, _, s₂, rfl, hfs⟩, b, _, hb, rfl, rfl⟩ := hread
  obtain ⟨xs, rfl, hxs⟩ := sound_formal _ _ _ hf
  obtain ⟨ys, rfl, hys⟩ := sound_sepBy (n := .formal) sound_formal _ _ _ hfs
  obtain ⟨zs, rfl, hzs⟩ := sound_block _ _ _ hb
  exact ⟨xs ++ ⟨.sign .lparen, s₁⟩ :: (ys ++ ⟨.sign .rparen, s₂⟩ :: zs), by simp,
    .fnDecl hxs hys hzs⟩

theorem sound_decl : Sound decl (Derives .decl) := by
  intro ts d us hread
  simp only [decl, topVarDecl, reads_orElse, reads_bind, reads_pure] at hread
  rcases hread with hd | ⟨-, hd | ⟨-, v, _, hd, rfl, rfl⟩⟩
  · obtain ⟨xs, rfl, hxs⟩ := sound_structDecl _ _ _ hd
    exact ⟨xs, rfl, .declStruct hxs⟩
  · obtain ⟨xs, rfl, hxs⟩ := sound_fnDecl _ _ _ hd
    exact ⟨xs, rfl, .declFn hxs⟩
  · obtain ⟨xs, rfl, hxs⟩ := sound_varDecl _ _ _ hd
    exact ⟨xs, rfl, .declVar hxs⟩

theorem sound_program : Sound program (Derives .program) := by
  intro ts p us hread
  simp only [program, whole, reads_bind, reads_endOfInput, reads_pure] at hread
  obtain ⟨_, _, ⟨ds, _, hds, rfl, rfl⟩, _, _, ⟨rfl, rfl⟩, rfl, rfl⟩ := hread
  obtain ⟨xs, rfl, hxs⟩ := sound_many (n := .decl) sound_decl _ _ _ hds
  exact ⟨xs, rfl, .program hxs⟩

/-! ## All nonterminals -/

/-- The parser of a nonterminal. -/
def Nonterminal.parser : (n : Nonterminal) → Parser n.Tree
  | .program => Grammar.program
  | .decl => Grammar.decl
  | .structDecl => Grammar.structDecl
  | .varDecl => Grammar.varDecl
  | .type => typeSpec
  | .fnDecl => Grammar.fnDecl
  | .formal => Grammar.formal
  | .block => Grammar.block
  | .stmt => Grammar.stmt
  | .exp => expr
  | .level l => l.parser expr
  | .atom => Grammar.atom expr
  | .call => Grammar.call expr
  | .loc => location
  | .dotName => do
    sign .dot
    ident
  | .unaryOp => operator .minus UnaryOp.neg <|> operator .not UnaryOp.not
  | .operation l => l.operation expr
  | .many n => Parser.many n.parser
  | .list n => sepBy n.parser (sign .comma)
  | .next n => do
    sign .comma
    n.parser

/-- Every parser reads what its nonterminal derives. -/
theorem sound_nonterminal (n : Nonterminal) : Sound n.parser (Derives n) := by
  induction n with
  | program => exact sound_program
  | decl => exact sound_decl
  | structDecl => exact sound_structDecl
  | varDecl => exact sound_varDecl
  | type => exact sound_typeSpec
  | fnDecl => exact sound_fnDecl
  | formal => exact sound_formal
  | block => exact sound_block
  | stmt => exact sound_stmtWith sound_block
  | exp => exact sound_expr
  | level l => exact sound_level sound_expr l
  | atom => exact sound_atom sound_expr
  | call => exact sound_call sound_expr
  | loc => exact sound_location
  | dotName => exact sound_dotName
  | unaryOp => exact sound_unaryOp
  | operation l => exact sound_operation fun k _ => sound_level sound_expr k
  | many n ih => exact sound_many ih
  | list n ih => exact sound_sepBy ih
  | next n ih => exact sound_next ih

end NameCheck.Grammar
