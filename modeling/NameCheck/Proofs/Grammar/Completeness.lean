import NameCheck.Proofs.Grammar.Follow

/-!
# What is derived is read

The parsers take the first alternative that succeeds and repeat as often as they can.  This never
costs them a derivation: when lexemes are derived from a nonterminal and what comes after them
cannot continue it, its parser reads exactly these lexemes, as the tree of the derivation.
-/

namespace NameCheck.Grammar

open NameCheck.Parser

variable {n : Nonterminal} {l k : Level} {ts us vs xs : List Lexeme}

/-- The parser of a nonterminal reads `xs` as `v`, whatever comes next that it has to stop at. -/
def ReadsBack (n : Nonterminal) (xs : List Lexeme) (v : n.Tree) : Prop :=
  ∀ us, n.Ends us → Reads n.parser (xs ++ us) v us

/-! ## Repetitions and lists -/

theorem readsBack_manyNil : ReadsBack (.many n) [] [] := by
  intro us hus
  exact reads_many_nil hus.2.2.1

theorem readsBack_manyCons {t : n.Tree} {rest : List n.Tree} (h : Derives n ts t)
    (hs : Derives (.many n) us rest) (ih : ReadsBack n ts t)
    (ihs : ReadsBack (.many n) us rest) : ReadsBack (.many n) (ts ++ us) (t :: rest) := by
  intro vs hvs
  obtain ⟨hn, hends, hfails, hagain⟩ := id hvs
  rw [List.append_assoc]
  refine reads_many_cons (ih _ ?_) ?_ (ihs _ hvs)
  · cases hs with
    | manyNil => exact hends
    | manyCons h' =>
        rw [List.append_assoc]
        exact hagain _ _ _ h'
  · obtain ⟨t, ts, rfl, -⟩ := h.begins.exists_first hn
    simp only [List.length_append, List.length_cons]
    omega

theorem readsBack_next {t : n.Tree} {s : Span} (ih : ReadsBack n ts t) :
    ReadsBack (.next n) (⟨.sign .comma, s⟩ :: ts) t := by
  intro us hus
  exact reads_sign_cons.bind (ih us hus)

theorem readsBack_listNil : ReadsBack (.list n) [] [] := by
  intro us hus
  exact (reads_optional.mpr (Or.inr ⟨rfl, rfl, fails_bind_of_fails hus.2.1⟩)).bind .pure

theorem readsBack_listCons {t : n.Tree} {rest : List n.Tree}
    (hs : Derives (.many (.next n)) us rest) (ih : ReadsBack n ts t)
    (ihs : ReadsBack (.many (.next n)) us rest) : ReadsBack (.list n) (ts ++ us) (t :: rest) := by
  intro vs hvs
  obtain ⟨hends, hfails, hcomma, hagain⟩ := hvs
  have hfirst : Reads n.parser (ts ++ (us ++ vs)) t (us ++ vs) := by
    refine ih _ ?_
    cases hs with
    | manyNil => exact hends
    | manyCons h' =>
        cases h' with
        | next => exact hagain _ _
  have hothers : Reads (many (do sign .comma; n.parser)) (us ++ vs) rest vs := by
    refine ihs vs ⟨rfl, hends, fails_bind_of_fails (fails_sign_of_nextNot hcomma ?_), ?_⟩
    · exact List.mem_singleton_self _
    · intro xs v ws h'
      cases h' with
      | next => exact hagain _ _
  have hlist : Reads (do
      let a ← n.parser
      let as ← many (do sign .comma; n.parser)
      return a :: as) (ts ++ (us ++ vs)) (t :: rest) vs := hfirst.bind (hothers.bind .pure)
  rw [List.append_assoc]
  exact (reads_optional.mpr (Or.inl ⟨_, rfl, hlist⟩)).bind .pure

/-! ## Expressions -/

/-- The signs that come after expressions in other productions do not continue them. -/
theorem ends_exp {m : Sign} {s : Span} (hm : m ∈ [.comma, .rparen, .semicolon]) :
    Nonterminal.exp.Ends (⟨.sign m, s⟩ :: us) := by
  apply nextNot_cons.mpr
  intro m' hm' heq
  cases heq
  revert hm hm'
  cases m <;> decide

theorem reads_between_of {α : Type} {o c : Sign} {p : Parser α} {a : α} {s₁ s₂ : Span}
    (h : Reads p (ts ++ ⟨.sign c, s₂⟩ :: us) a (⟨.sign c, s₂⟩ :: us)) :
    Reads (between o c p) (⟨.sign o, s₁⟩ :: (ts ++ ⟨.sign c, s₂⟩ :: us)) a us :=
  reads_between.mpr ⟨s₁, _, s₂, rfl, h⟩

theorem readsBack_call {x : String} {s₁ s₂ s₃ : Span} {as : List Expr}
    (ih : ReadsBack (.list .exp) ts as) :
    ReadsBack .call (⟨.name x, s₁⟩ :: ⟨.sign .lparen, s₂⟩ :: (ts ++ [⟨.sign .rparen, s₃⟩]))
      (.call s₁.start ⟨x, s₁.start⟩ as) := by
  intro us _
  have hnone : Fails Nonterminal.exp.parser (⟨.sign .rparen, s₃⟩ :: us) := fails_of_sign rfl rfl
  have hargs := ih (⟨.sign .rparen, s₃⟩ :: us)
    ⟨ends_exp (by decide), hnone, by simp, fun _ _ => ends_exp (by decide)⟩
  simp only [List.cons_append, List.append_assoc, List.nil_append]
  exact reads_ident_cons.bind ((reads_between_of hargs).bind .pure)

theorem fails_call_of_loc {p : Parser Expr} {e : Expr} (h : Derives .loc xs e)
    (hus : NextNot [.lparen] us) : Fails (call p) (xs ++ us) := by
  cases h with
  | loc hfs =>
      refine fails_bind_of_reads reads_ident_cons (fails_bind_of_fails ?_)
      refine fails_bind_of_fails ?_
      cases hfs with
      | manyNil => exact fails_sign_of_nextNot hus (List.mem_singleton_self _)
      | manyCons hf =>
          cases hf with
          | dotName => exact fails_token_cons.mpr (by simp)

theorem fails_call_of_not_name {p : Parser Expr} {t : Lexeme} (h : ∀ x, t.token ≠ .name x) :
    Fails (call p) (t :: ts) :=
  fails_bind_of_fails (fails_ident_cons.mpr h)

theorem readsBack_literal {t : Lexeme} {e : Expr} (ht : ∀ x, t.token ≠ .name x)
    (h : Reads literal (t :: us) e us) : Reads (atom expr) (t :: us) e us :=
  reads_orElse_right (fails_call_of_not_name ht) (reads_orElse_left h)

theorem readsBack_atomCall {e : Expr} (ih : ReadsBack .call ts e) : ReadsBack .atom ts e := by
  intro us _
  exact reads_orElse_left (ih us trivial)

theorem readsBack_atomLoc {e : Expr} (h : Derives .loc ts e) : ReadsBack .atom ts e := by
  intro us hus
  have hread : Reads location (ts ++ us) e us := reads_location h (NextNot.mono hus (by decide))
  have hcall : Fails (call expr) (ts ++ us) :=
    fails_call_of_loc h (NextNot.mono hus (by decide))
  have hliteral : Fails literal (ts ++ us) := by
    cases h with
    | loc => exact fails_select_cons.mpr rfl
  exact reads_orElse_right hcall (reads_orElse_right hliteral (reads_orElse_left hread))

theorem readsBack_atomParen {e : Expr} {s₁ s₂ : Span} (ih : ReadsBack .exp ts e) :
    ReadsBack .atom (⟨.sign .lparen, s₁⟩ :: (ts ++ [⟨.sign .rparen, s₂⟩])) e := by
  intro us _
  simp only [List.cons_append, List.append_assoc, List.nil_append]
  have hinner : Reads expr (ts ++ ⟨.sign .rparen, s₂⟩ :: us) e (⟨.sign .rparen, s₂⟩ :: us) :=
    ih _ (ends_exp (by decide))
  apply reads_orElse_right (fails_call_of_not_name (by simp))
  apply reads_orElse_right (fails_select_cons.mpr rfl)
  apply reads_orElse_right (fails_location (by simp))
  exact reads_between_of hinner

theorem readsBack_unaryOp {m : Sign} {op : UnaryOp} {s : Span} (h : (m, op) ∈ unaryOps) :
    ReadsBack .unaryOp [⟨.sign m, s⟩] op := by
  intro us _
  exact (readsOneOf_unaryOp _ _ _).mpr ⟨m, s, h, rfl⟩

/-- No atom begins with a prefix. -/
theorem first_unaryOp_of_startsAtom {k : Token} (h : startsAtom k = true) :
    Nonterminal.unaryOp.first k = false := by
  revert h
  simp only [Nonterminal.first]
  cases k <;> simp [startsAtom, unaryOps]
  rintro rfl
  decide

theorem readsBack_unary {ops : List UnaryOp} {e : Expr} (he : Derives .atom us e)
    (ihos : ReadsBack (.many .unaryOp) ts ops) (ih : ReadsBack .atom us e) :
    ReadsBack (.level .unary) (ts ++ us) (prefixed ops e) := by
  intro vs hvs
  have hops : Reads (many Nonterminal.unaryOp.parser) (ts ++ (us ++ vs)) ops (us ++ vs) := by
    refine ihos _ ⟨rfl, trivial, ?_, fun _ _ _ _ => trivial⟩
    obtain ⟨t, us, rfl, ht⟩ := he.begins.exists_first rfl
    refine fails_of_first (n := .unaryOp) rfl fun t' ht' => ?_
    cases ht'
    exact first_unaryOp_of_startsAtom ht
  rw [List.append_assoc]
  exact hops.bind ((ih vs hvs).bind .pure)

theorem readsBack_operation {m : Sign} {op : BinaryOp} {s : Span} {e : Expr}
    (h : (m, op) ∈ l.ops) (hk : l.operand? = some k) (ih : ReadsBack (.level k) ts e) :
    ReadsBack (.operation l) (⟨.sign m, s⟩ :: ts) (op, e) := by
  intro us hus
  rw [Nonterminal.parser, Level.operation_eq hk]
  have hop : Reads l.operator (⟨.sign m, s⟩ :: ts ++ us) op (ts ++ us) :=
    (readsOneOf_levelOperator l _ _ _).mpr ⟨m, s, h, rfl⟩
  exact hop.bind ((ih us (hus k hk)).bind .pure)

theorem readsBack_level {e : Expr} {os : List (BinaryOp × Expr)} (hk : l.operand? = some k)
    (hos : Derives (.many (.operation l)) us os) (ih : ReadsBack (.level k) ts e)
    (ihos : ReadsBack (.many (.operation l)) us os) :
    ReadsBack (.level l) (ts ++ us) (folded e os) := by
  have hagain : ∀ xs v ws, Derives (.operation l) xs v →
      (Nonterminal.operation l).Ends (xs ++ ws) := by
    intro xs v ws h k' hk'
    cases h with
    | operation hm =>
        refine nextNot_cons.mpr fun m hmem heq => ?_
        cases heq
        exact Level.not_mem_follow hk' _ hm hmem
  intro vs hvs
  have hnext {k' : Level} (hk' : l.operand? = some k') : NextNot k'.follow vs :=
    NextNot.mono hvs (Level.follow_subset hk')
  have hfirst : Reads (k.parser expr) (ts ++ (us ++ vs)) e (us ++ vs) := by
    refine ih _ ?_
    cases hos with
    | manyNil => exact hnext hk
    | manyCons h =>
        rw [List.append_assoc]
        exact hagain _ _ _ h k hk
  have hfails : Fails (l.operation expr) vs := by
    rw [Level.operation_eq hk]
    refine fails_bind_of_fails (fails_of_readsOneOf (readsOneOf_levelOperator l) ?_)
    exact NextNot.mono hvs Level.ops_subset
  have hothers := ihos vs ⟨rfl, fun k' hk' => hnext hk', hfails, hagain⟩
  rw [Nonterminal.parser, Nonterminal.parser, Level.operation_eq hk] at hothers
  rw [Nonterminal.parser, Level.parser_eq hk, List.append_assoc]
  exact hfirst.bind (hothers.bind .pure)

theorem readsBack_or {e : Expr} (h : Derives (.level .or) ts e)
    (ih : ReadsBack (.level .or) ts e) : ReadsBack .exp ts e := by
  intro us hus
  rw [Nonterminal.parser, expr_eq]
  refine reads_orElse_right (fails_assignment_of_level h (NextNot.mono hus ?_)) (ih us ?_)
  · decide
  · exact NextNot.mono hus (List.subset_cons_self _ _)

theorem reads_assignment {lhs rhs : Expr} {s : Span} (h : Derives .loc ts lhs)
    (ih : Reads expr xs rhs vs) :
    Reads (assignment expr) (ts ++ ⟨.sign .assign, s⟩ :: xs) (.assign lhs.pos lhs rhs) vs := by
  refine (reads_location h (nextNot_cons.mpr (by simp))).bind ?_
  exact reads_sign_cons.bind (ih.bind .pure)

theorem readsBack_assign {lhs rhs : Expr} {s : Span} (h : Derives .loc ts lhs)
    (ih : ReadsBack .exp us rhs) :
    ReadsBack .exp (ts ++ ⟨.sign .assign, s⟩ :: us) (.assign lhs.pos lhs rhs) := by
  intro vs hvs
  rw [Nonterminal.parser, expr_eq, List.append_assoc]
  exact reads_orElse_left (reads_assignment h (ih vs hvs))

/-! ## Declarations of names -/

theorem readsBack_basicType {w : Keyword} {t : TypeSpec} {s : Span} (h : (w, t) ∈ basicTypes) :
    ReadsBack .type [⟨.keyword w, s⟩] t := by
  intro us _
  refine reads_orElse_left (reads_select.mpr ⟨_, rfl, ?_⟩)
  simp only [basicTypes, List.mem_cons, Prod.mk.injEq, List.not_mem_nil, or_false] at h
  rcases h with ⟨rfl, rfl⟩ | ⟨rfl, rfl⟩ | ⟨rfl, rfl⟩ <;> rfl

theorem readsBack_structType {x : String} {s : Span} (h : Optional (.keyword .struct_) ts) :
    ReadsBack .type (ts ++ [⟨.name x, s⟩]) (.struct ⟨x, s.start⟩) := by
  intro us _
  have hname : Reads ident (⟨.name x, s⟩ :: us) ⟨x, s.start⟩ us :=
    reads_ident_cons
  rcases h with rfl | ⟨s', rfl⟩
  · have hnone : Reads (Parser.optional (keyword .struct_)) (⟨.name x, s⟩ :: us) none
        (⟨.name x, s⟩ :: us) :=
      reads_optional.mpr (Or.inr ⟨rfl, rfl, fails_token_cons.mpr (by simp)⟩)
    exact reads_orElse_right (fails_select_cons.mpr rfl) (hnone.bind (hname.bind .pure))
  · have hsome : Reads (Parser.optional (keyword .struct_))
        (⟨.keyword .struct_, s'⟩ :: ⟨.name x, s⟩ :: us) (some ()) (⟨.name x, s⟩ :: us) :=
      reads_optional.mpr (Or.inl ⟨(), rfl, reads_keyword_cons⟩)
    exact reads_orElse_right (fails_select_cons.mpr rfl) (hsome.bind (hname.bind .pure))

theorem readsBack_formal {t : TypeSpec} {x : String} {s : Span} (ih : ReadsBack .type ts t) :
    ReadsBack .formal (ts ++ [⟨.name x, s⟩]) ⟨t, ⟨x, s.start⟩⟩ := by
  intro us _
  rw [List.append_assoc]
  exact (ih _ trivial).bind (reads_ident_cons.bind .pure)

theorem readsBack_varDecl {d : VarDecl} {s : Span} (ih : ReadsBack .formal ts d) :
    ReadsBack .varDecl (ts ++ [⟨.sign .semicolon, s⟩]) d := by
  intro us _
  rw [List.append_assoc]
  exact (ih _ trivial).bind (reads_sign_cons.bind .pure)

/-! ## Statements -/

section Actions

variable {m : Sign} {a : Action} {e : Expr} {s₁ s₂ s₃ : Span}

theorem reads_semicolon {α : Type} {v : α} {s : Span} :
    Reads (do sign .semicolon; return v) (⟨.sign .semicolon, s⟩ :: us) v us :=
  reads_sign_cons.bind .pure

theorem readsBack_assignStmt {lhs rhs : Expr} (h : Derives .loc ts lhs)
    (ih : ReadsBack .exp us rhs) :
    ReadsBack .stmt (ts ++ ⟨.sign .assign, s₁⟩ :: (us ++ [⟨.sign .semicolon, s₂⟩]))
      (.act .assign (.assign lhs.pos lhs rhs)) := by
  intro vs _
  simp only [List.cons_append, List.append_assoc, List.nil_append]
  have hrhs := ih (⟨.sign .semicolon, s₂⟩ :: vs) (ends_exp (by decide))
  exact reads_orElse_left ((reads_assignment h hrhs).bind reads_semicolon)

/-- A location that is not followed by a sign begins no statement that needs this sign. -/
theorem fails_postStmt_of_loc (h : Derives .loc ts e) (hus : NextNot [.dot, m] us) :
    Fails (postStmt m a) (ts ++ us) := by
  refine fails_bind_of_reads (reads_location h (hus.mono (by simp))) ?_
  exact fails_bind_of_fails (fails_sign_of_nextNot hus (by simp))

theorem reads_postStmt (h : Derives .loc ts e) (hm : m ≠ .dot) :
    Reads (postStmt m a) (ts ++ ⟨.sign m, s₁⟩ :: ⟨.sign .semicolon, s₂⟩ :: us) (.act a e) us := by
  have hnext : NextNot [.dot] (⟨.sign m, s₁⟩ :: ⟨.sign .semicolon, s₂⟩ :: us) :=
    nextNot_cons.mpr (by simpa using hm)
  exact (reads_location h hnext).bind (reads_sign_cons.bind reads_semicolon)

theorem readsBack_postStmt (hm : (m, a) ∈ postActions) (h : Derives .loc ts e) :
    ReadsBack .stmt (ts ++ [⟨.sign m, s₁⟩, ⟨.sign .semicolon, s₂⟩]) (.act a e) := by
  intro us _
  rw [List.append_assoc]
  simp only [postActions, List.mem_cons, Prod.mk.injEq, List.not_mem_nil, or_false] at hm
  have hassign (hm' : m ≠ .dot ∧ m ≠ .assign) :
      Fails (assignment expr) (ts ++ ⟨.sign m, s₁⟩ :: ⟨.sign .semicolon, s₂⟩ :: us) :=
    fails_assignment_of_loc h (nextNot_cons.mpr (by simp [hm']))
  rcases hm with ⟨rfl, rfl⟩ | ⟨rfl, rfl⟩
  · apply reads_orElse_right (fails_bind_of_fails (hassign (by decide)))
    exact reads_orElse_left (reads_postStmt h (by decide))
  · apply reads_orElse_right (fails_bind_of_fails (hassign (by decide)))
    apply reads_orElse_right (fails_postStmt_of_loc h (nextNot_cons.mpr (by simp)))
    exact reads_orElse_left (reads_postStmt h (by decide))

theorem reads_preStmt (h : Derives .loc ts e) :
    Reads (preStmt m a) (⟨.sign m, s₁⟩ :: (ts ++ ⟨.sign .semicolon, s₂⟩ :: us)) (.act a e) us := by
  refine reads_sign_cons.bind ?_
  exact (reads_location h (nextNot_cons.mpr (by simp))).bind reads_semicolon

end Actions

/-! The other statements begin with a lexeme that no other kind of statement begins with. -/

section Words

variable {t : Lexeme} {b b' : Block} {e : Expr} {s₁ s₂ s₃ s₄ : Span}

theorem reads_stmt_of_not_name {st : Stmt} (ht : ∀ x, t.token ≠ .name x)
    (h : Reads (preStmt .plusPlus .preInc <|> preStmt .minusMinus .preDec <|> readStmt <|>
      writeStmt <|> ifStmt block <|> loopStmt .while_ .whileLoop block <|>
      loopStmt .repeat_ .repeatLoop block <|> callStmt <|> returnStmt) (t :: ts) st us) :
    Reads stmt (t :: ts) st us := by
  have hassign : Fails (assignment expr) (t :: ts) := fails_assignment_of_not_name ht
  have hloc : Fails location (t :: ts) := fails_location ht
  apply reads_orElse_right (fails_bind_of_fails hassign)
  apply reads_orElse_right (fails_bind_of_fails hloc)
  exact reads_orElse_right (fails_bind_of_fails hloc) h

theorem fails_word {α : Type} {w : Token} {f : Unit → Parser α} (h : t.token ≠ w) :
    Fails (token w >>= f) (t :: ts) :=
  fails_bind_of_fails (fails_token_cons.mpr h)

theorem readsBack_preStmt {m : Sign} {a : Action} (hm : (m, a) ∈ preActions)
    (h : Derives .loc ts e) :
    ReadsBack .stmt (⟨.sign m, s₁⟩ :: (ts ++ [⟨.sign .semicolon, s₂⟩])) (.act a e) := by
  intro us _
  simp only [List.cons_append, List.append_assoc, List.nil_append]
  refine reads_stmt_of_not_name (by simp) ?_
  simp only [preActions, List.mem_cons, Prod.mk.injEq, List.not_mem_nil, or_false] at hm
  rcases hm with ⟨rfl, rfl⟩ | ⟨rfl, rfl⟩
  · exact reads_orElse_left (reads_preStmt h)
  · exact reads_orElse_right (fails_word (by simp)) (reads_orElse_left (reads_preStmt h))

theorem reads_stmt_of_keyword {st : Stmt} {w : Keyword} {s : Span}
    (h : Reads (readStmt <|> writeStmt <|> ifStmt block <|> loopStmt .while_ .whileLoop block <|>
      loopStmt .repeat_ .repeatLoop block <|> callStmt <|> returnStmt)
        (⟨.keyword w, s⟩ :: ts) st us) :
    Reads stmt (⟨.keyword w, s⟩ :: ts) st us := by
  refine reads_stmt_of_not_name (by simp) ?_
  exact reads_orElse_right (fails_word (by simp)) (reads_orElse_right (fails_word (by simp)) h)

theorem readsBack_readStmt (h : Derives .loc ts e) :
    ReadsBack .stmt
      (⟨.keyword .cin_, s₁⟩ :: ⟨.sign .read, s₂⟩ :: (ts ++ [⟨.sign .semicolon, s₃⟩]))
      (.act .read e) := by
  intro us _
  simp only [List.cons_append, List.append_assoc, List.nil_append]
  have hloc : Reads location (ts ++ ⟨.sign .semicolon, s₃⟩ :: us) e
      (⟨.sign .semicolon, s₃⟩ :: us) :=
    reads_location h (by simp)
  refine reads_stmt_of_keyword (reads_orElse_left ?_)
  exact reads_keyword_cons.bind (reads_sign_cons.bind (hloc.bind reads_semicolon))

theorem readsBack_writeStmt (ih : ReadsBack .exp ts e) :
    ReadsBack .stmt
      (⟨.keyword .cout_, s₁⟩ :: ⟨.sign .write, s₂⟩ :: (ts ++ [⟨.sign .semicolon, s₃⟩]))
      (.act .write e) := by
  intro us _
  simp only [List.cons_append, List.append_assoc, List.nil_append]
  have hexp := ih (⟨.sign .semicolon, s₃⟩ :: us) (ends_exp (by decide))
  refine reads_stmt_of_keyword ?_
  refine reads_orElse_right (fails_word (by simp)) (reads_orElse_left ?_)
  exact reads_keyword_cons.bind (reads_sign_cons.bind (hexp.bind reads_semicolon))

theorem reads_condition (ih : ReadsBack .exp ts e) :
    Reads condition (⟨.sign .lparen, s₁⟩ :: (ts ++ ⟨.sign .rparen, s₂⟩ :: us)) e us :=
  reads_between_of (ih _ (ends_exp (by decide)))

theorem readsBack_ifThen (ih : ReadsBack .exp ts e) (ihb : ReadsBack .block us b) :
    ReadsBack .stmt
      (⟨.keyword .if_, s₁⟩ :: ⟨.sign .lparen, s₂⟩ :: (ts ++ ⟨.sign .rparen, s₃⟩ :: us))
      (.ifThen e b) := by
  intro vs hvs
  simp only [List.cons_append, List.append_assoc]
  have hnone : Reads (Parser.optional (do keyword .else_; block)) vs none vs := by
    refine reads_optional.mpr (Or.inr ⟨rfl, rfl, fails_bind_of_fails ?_⟩)
    cases vs with
    | nil => exact fails_token_nil
    | cons t vs => exact fails_token_cons.mpr (hvs t rfl)
  refine reads_stmt_of_keyword ?_
  iterate 2 refine reads_orElse_right (fails_word (by simp)) ?_
  refine reads_orElse_left (reads_keyword_cons.bind ((reads_condition ih).bind ?_))
  exact (ihb vs trivial).bind (hnone.bind .pure)

theorem readsBack_ifElse (ih : ReadsBack .exp ts e) (ihb : ReadsBack .block us b)
    (ihb' : ReadsBack .block vs b') :
    ReadsBack .stmt
      (⟨.keyword .if_, s₁⟩ :: ⟨.sign .lparen, s₂⟩ ::
        (ts ++ ⟨.sign .rparen, s₃⟩ :: (us ++ ⟨.keyword .else_, s₄⟩ :: vs)))
      (.ifElse e b b') := by
  intro ws _
  simp only [List.cons_append, List.append_assoc]
  have hsome : Reads (Parser.optional (do keyword .else_; block))
      (⟨.keyword .else_, s₄⟩ :: (vs ++ ws)) (some b') ws :=
    reads_optional.mpr (Or.inl ⟨b', rfl, reads_keyword_cons.bind (ihb' ws trivial)⟩)
  refine reads_stmt_of_keyword ?_
  iterate 2 refine reads_orElse_right (fails_word (by simp)) ?_
  refine reads_orElse_left (reads_keyword_cons.bind ((reads_condition ih).bind ?_))
  exact (ihb _ trivial).bind (hsome.bind .pure)

theorem reads_loopStmt {w : Keyword} {k : LoopKind} (ih : ReadsBack .exp ts e)
    (ihb : ReadsBack .block us b) :
    Reads (loopStmt w k block)
      (⟨.keyword w, s₁⟩ :: ⟨.sign .lparen, s₂⟩ :: (ts ++ ⟨.sign .rparen, s₃⟩ :: (us ++ vs)))
      (.loop k e b) vs :=
  reads_keyword_cons.bind ((reads_condition ih).bind ((ihb vs trivial).bind .pure))

theorem readsBack_loopStmt {w : Keyword} {k : LoopKind} (hw : (w, k) ∈ loopWords)
    (ih : ReadsBack .exp ts e) (ihb : ReadsBack .block us b) :
    ReadsBack .stmt
      (⟨.keyword w, s₁⟩ :: ⟨.sign .lparen, s₂⟩ :: (ts ++ ⟨.sign .rparen, s₃⟩ :: us))
      (.loop k e b) := by
  intro vs _
  simp only [List.cons_append, List.append_assoc]
  simp only [loopWords, List.mem_cons, Prod.mk.injEq, List.not_mem_nil, or_false] at hw
  refine reads_stmt_of_keyword ?_
  rcases hw with ⟨rfl, rfl⟩ | ⟨rfl, rfl⟩
  · iterate 3 refine reads_orElse_right (fails_word (by simp)) ?_
    exact reads_orElse_left (reads_loopStmt ih ihb)
  · iterate 4 refine reads_orElse_right (fails_word (by simp)) ?_
    exact reads_orElse_left (reads_loopStmt ih ihb)

theorem fails_postStmt_of_call {m : Sign} {a : Action} (h : Derives .call ts e)
    (hm : m ≠ .lparen) : Fails (postStmt m a) (ts ++ us) := by
  obtain ⟨x, s₁, s₂, ts, rfl, hloc⟩ := h.call_starts
  rw [List.append_assoc]
  exact fails_postStmt_of_loc hloc (nextNot_cons.mpr (by simpa using hm.symm))

theorem readsBack_callStmt (h : Derives .call ts e) (ih : ReadsBack .call ts e) :
    ReadsBack .stmt (ts ++ [⟨.sign .semicolon, s₁⟩]) (.act .call e) := by
  intro us _
  rw [List.append_assoc]
  have hread : Reads callStmt (ts ++ ⟨.sign .semicolon, s₁⟩ :: us) (.act .call e) us :=
    (ih _ trivial).bind reads_semicolon
  apply reads_orElse_right (fails_bind_of_fails (fails_assignment_of_call h))
  apply reads_orElse_right (fails_postStmt_of_call h (by decide))
  apply reads_orElse_right (fails_postStmt_of_call h (by decide))
  obtain ⟨x, s₁, s₂, ts, rfl, -⟩ := h.call_starts
  iterate 7 refine reads_orElse_right (fails_word (by simp)) ?_
  exact reads_orElse_left hread

theorem reads_returnStmt {value : Option Expr}
    (h : Reads (Parser.optional expr) (ts ++ ⟨.sign .semicolon, s₂⟩ :: us) value
      (⟨.sign .semicolon, s₂⟩ :: us)) :
    Reads stmt (⟨.keyword .return_, s₁⟩ :: (ts ++ ⟨.sign .semicolon, s₂⟩ :: us)) (.ret value)
      us := by
  refine reads_stmt_of_keyword ?_
  iterate 5 refine reads_orElse_right (fails_word (by simp)) ?_
  refine reads_orElse_right (fails_bind_of_fails (fails_call_of_not_name (by simp))) ?_
  exact reads_keyword_cons.bind (h.bind reads_semicolon)

theorem readsBack_returnStmt :
    ReadsBack .stmt [⟨.keyword .return_, s₁⟩, ⟨.sign .semicolon, s₂⟩] (.ret none) := by
  intro us _
  have hnone : Reads (Parser.optional expr) ([] ++ ⟨.sign .semicolon, s₂⟩ :: us) none
      (⟨.sign .semicolon, s₂⟩ :: us) := by
    refine reads_optional.mpr (Or.inr ⟨rfl, rfl, ?_⟩)
    exact fails_of_sign (n := .exp) rfl rfl
  have hread : Reads stmt (⟨.keyword .return_, s₁⟩ :: ([] ++ ⟨.sign .semicolon, s₂⟩ :: us))
      (.ret none) us := reads_returnStmt hnone
  exact hread

theorem readsBack_returnValue (ih : ReadsBack .exp ts e) :
    ReadsBack .stmt (⟨.keyword .return_, s₁⟩ :: (ts ++ [⟨.sign .semicolon, s₂⟩]))
      (.ret (some e)) := by
  intro us _
  simp only [List.cons_append, List.append_assoc, List.nil_append]
  refine reads_returnStmt (reads_optional.mpr (Or.inl ⟨e, rfl, ih _ ?_⟩))
  exact ends_exp (by decide)

end Words

/-! ## Blocks and declarations -/

section Blocks

variable {ds : List VarDecl} {ss : List Stmt} {s₁ s₂ : Span}

/-- The declarations of a block end where its statements begin. -/
theorem reads_blockDecls (hss : Derives (.many .stmt) us ss)
    (ihds : ReadsBack (.many .varDecl) ts ds) :
    Reads (many varDecl) (ts ++ (us ++ ⟨.sign .rbrace, s₂⟩ :: vs)) ds
      (us ++ ⟨.sign .rbrace, s₂⟩ :: vs) := by
  refine ihds _ ⟨rfl, trivial, ?_, fun _ _ _ _ => trivial⟩
  cases hss with
  | manyNil => exact fails_of_sign (n := .varDecl) rfl rfl
  | manyCons h =>
      rw [List.append_assoc]
      exact fails_varDecl_of_stmt h

/-- No statement begins with `else`, so that each statement of a block ends before the next. -/
theorem reads_blockStmts (ihss : ReadsBack (.many .stmt) us ss) :
    Reads (many (stmtWith block)) (us ++ ⟨.sign .rbrace, s₂⟩ :: vs) ss
      (⟨.sign .rbrace, s₂⟩ :: vs) := by
  refine ihss _ ⟨rfl, by simp [Nonterminal.Ends], fails_of_sign (n := .stmt) rfl rfl, ?_⟩
  intro xs v ws h
  obtain ⟨t, ts, rfl, ht⟩ := h.begins.exists_first rfl
  intro t' ht' heq
  cases ht'
  simp [Nonterminal.first, startsStmt, heq] at ht

theorem readsBack_block (hss : Derives (.many .stmt) us ss)
    (ihds : ReadsBack (.many .varDecl) ts ds) (ihss : ReadsBack (.many .stmt) us ss) :
    ReadsBack .block (⟨.sign .lbrace, s₁⟩ :: (ts ++ (us ++ [⟨.sign .rbrace, s₂⟩])))
      (.mk ds ss) := by
  intro vs _
  have hbody : Reads (do
      let decls ← many varDecl
      let stmts ← many (stmtWith block)
      return Block.mk decls stmts) (ts ++ us ++ ⟨.sign .rbrace, s₂⟩ :: vs) (.mk ds ss)
        (⟨.sign .rbrace, s₂⟩ :: vs) := by
    rw [List.append_assoc]
    exact (reads_blockDecls hss ihds).bind ((reads_blockStmts ihss).bind .pure)
  have hread : Reads (blockWith block)
      (⟨.sign .lbrace, s₁⟩ :: (ts ++ us ++ ⟨.sign .rbrace, s₂⟩ :: vs)) (.mk ds ss) vs :=
    reads_between_of hbody
  rw [Nonterminal.parser, block_eq]
  simpa only [List.cons_append, List.append_assoc, List.nil_append] using hread

end Blocks

theorem readsBack_structDecl {x : String} {fs : List VarDecl} {s₁ s₂ s₃ s₄ : Span}
    (hend : Optional (.sign .semicolon) us) (ih : ReadsBack (.many .varDecl) ts fs) :
    ReadsBack .structDecl
      (⟨.keyword .struct_, s₁⟩ :: ⟨.name x, s₂⟩ :: ⟨.sign .lbrace, s₃⟩ ::
        (ts ++ ⟨.sign .rbrace, s₄⟩ :: us))
      (.struct ⟨⟨x, s₂.start⟩, fs⟩) := by
  intro vs hvs
  have hfields : Reads (many varDecl) (ts ++ ⟨.sign .rbrace, s₄⟩ :: (us ++ vs)) fs
      (⟨.sign .rbrace, s₄⟩ :: (us ++ vs)) := by
    refine ih _ ⟨rfl, trivial, ?_, fun _ _ _ _ => trivial⟩
    exact fails_of_sign (n := .varDecl) rfl rfl
  have hsemicolon : ∃ u?, Reads (Parser.optional (sign .semicolon)) (us ++ vs) u? vs := by
    rcases hend with rfl | ⟨s, rfl⟩
    · refine ⟨none, reads_optional.mpr (Or.inr ⟨rfl, rfl, ?_⟩)⟩
      exact fails_sign_of_nextNot hvs (List.mem_singleton_self _)
    · exact ⟨some (), reads_optional.mpr (Or.inl ⟨(), rfl, reads_sign_cons⟩)⟩
  obtain ⟨u?, hsemicolon⟩ := hsemicolon
  simp only [List.cons_append, List.append_assoc]
  refine reads_keyword_cons.bind (reads_ident_cons.bind ((reads_between_of hfields).bind ?_))
  exact hsemicolon.bind .pure

theorem readsBack_fnDecl {d : VarDecl} {fs : List VarDecl} {b : Block} {s₁ s₂ : Span}
    (ih : ReadsBack .formal ts d) (ihfs : ReadsBack (.list .formal) us fs)
    (ihb : ReadsBack .block vs b) :
    ReadsBack .fnDecl (ts ++ ⟨.sign .lparen, s₁⟩ :: (us ++ ⟨.sign .rparen, s₂⟩ :: vs))
      (.fn ⟨d.type, d.name, fs, b⟩) := by
  intro ws _
  have hformals : Reads (sepBy formal (sign .comma)) (us ++ ⟨.sign .rparen, s₂⟩ :: (vs ++ ws)) fs
      (⟨.sign .rparen, s₂⟩ :: (vs ++ ws)) := by
    refine ihfs _ ⟨trivial, ?_, by simp, fun _ _ => trivial⟩
    exact fails_of_sign (n := .formal) rfl rfl
  simp only [List.cons_append, List.append_assoc]
  refine (ih _ trivial).bind ((reads_between_of hformals).bind ?_)
  exact (ihb ws trivial).bind .pure

theorem Derives.fnDecl_starts {d : Decl} (h : Derives .fnDecl xs d) :
    ∃ f ys zs, xs = ys ++ zs ∧ Derives .formal ys f := by
  cases h with
  | fnDecl hf => exact ⟨_, _, _, rfl, hf⟩

theorem readsBack_declFn {d : Decl} (h : Derives .fnDecl ts d) (ih : ReadsBack .fnDecl ts d) :
    ReadsBack .decl ts d := by
  intro us _
  refine reads_orElse_right ?_ (reads_orElse_left (ih us trivial))
  obtain ⟨f, ys, zs, rfl, hf⟩ := h.fnDecl_starts
  rw [List.append_assoc]
  exact fails_structDecl_of_formal hf

/-- A declaration of a variable is no function: there is a semicolon where the formals begin. -/
theorem fails_fnDecl_of_reads {d : VarDecl} (h : Reads varDecl xs d us) : Fails fnDecl xs := by
  obtain ⟨d', vs, hd, hrest⟩ := reads_bind.mp h
  refine fails_bind_of_reads hd (fails_bind_of_fails (fails_bind_of_fails ?_))
  simp only [reads_bind, reads_sign, reads_pure] at hrest
  obtain ⟨_, _, ⟨s, rfl⟩, _⟩ := hrest
  exact fails_token_cons.mpr (by simp)

theorem readsBack_declVar {d : VarDecl} (h : Derives .varDecl ts d)
    (ih : ReadsBack .varDecl ts d) : ReadsBack .decl ts (.var d) := by
  intro us _
  have hread : Reads varDecl (ts ++ us) d us := ih us trivial
  refine reads_orElse_right ?_ (reads_orElse_right (fails_fnDecl_of_reads hread) ?_)
  · cases h with
    | varDecl hd =>
        rw [List.append_assoc]
        exact fails_structDecl_of_formal hd
  · exact hread.bind .pure

theorem readsBack_program {ds : List Decl} (ih : ReadsBack (.many .decl) ts ds) :
    ReadsBack .program ts ⟨ds⟩ := by
  intro us hus
  obtain rfl : us = [] := hus
  have hdecls : Reads (many decl) (ts ++ []) ds [] := by
    refine ih [] ⟨rfl, nextNot_nil, fails_of_first (n := .decl) rfl (by simp), ?_⟩
    intro xs v ws h
    obtain ⟨t, ts, rfl, ht⟩ := h.begins.exists_first rfl
    refine nextNot_cons.mpr fun m _ heq => ?_
    simp [Nonterminal.first, startsType, heq] at ht
  have hread : Reads (do let decls ← many decl; return Program.mk decls) (ts ++ []) ⟨ds⟩ [] :=
    hdecls.bind .pure
  have hend : Reads endOfInput [] () [] := reads_endOfInput.mpr ⟨rfl, rfl⟩
  exact hread.bind (hend.bind .pure)

/-! ## All nonterminals -/

/-- What is derived from a nonterminal is read by its parser, as the tree of the derivation, when
what comes next cannot continue it.  The induction is on the derivation. -/
theorem Derives.readsBack {v : n.Tree} (h : Derives n xs v) : ReadsBack n xs v := by
  induction h with
  | program _ ih => exact readsBack_program ih
  | declStruct _ ih => exact fun us hus => reads_orElse_left (ih us hus)
  | declFn h ih => exact readsBack_declFn h ih
  | declVar h ih => exact readsBack_declVar h ih
  | structDecl _ hend ih => exact readsBack_structDecl hend ih
  | varDecl _ ih => exact readsBack_varDecl ih
  | basicType h => exact readsBack_basicType h
  | structType hstart => exact readsBack_structType hstart
  | fnDecl _ _ _ ih ihfs ihb => exact readsBack_fnDecl ih ihfs ihb
  | formal _ ih => exact readsBack_formal ih
  | block _ hss ihds ihss => exact readsBack_block hss ihds ihss
  | assignStmt hl _ _ ih => exact readsBack_assignStmt hl ih
  | postStmt hm hl => exact readsBack_postStmt hm hl
  | preStmt hm hl => exact readsBack_preStmt hm hl
  | readStmt hl => exact readsBack_readStmt hl
  | writeStmt _ ih => exact readsBack_writeStmt ih
  | ifThen _ _ ih ihb => exact readsBack_ifThen ih ihb
  | ifElse _ _ _ ih ihb ihb' => exact readsBack_ifElse ih ihb ihb'
  | loopStmt hw _ _ ih ihb => exact readsBack_loopStmt hw ih ihb
  | callStmt h ih => exact readsBack_callStmt h ih
  | returnStmt => exact readsBack_returnStmt
  | returnValue _ ih => exact readsBack_returnValue ih
  | assign hl _ _ ih => exact readsBack_assign hl ih
  | or h ih => exact readsBack_or h ih
  | level hk _ hos ih ihos => exact readsBack_level hk hos ih ihos
  | operation hm hk _ ih => exact readsBack_operation hm hk ih
  | unary _ he ihos ih => exact readsBack_unary he ihos ih
  | unaryOp hm => exact readsBack_unaryOp hm
  | atomCall _ ih => exact readsBack_atomCall ih
  | atomInt | atomStr | atomTrue | atomFalse =>
      exact fun us _ => readsBack_literal (by simp) (reads_select.mpr ⟨_, rfl, rfl⟩)
  | atomLoc h => exact readsBack_atomLoc h
  | atomParen _ ih => exact readsBack_atomParen ih
  | call _ ih => exact readsBack_call ih
  | loc hfs => exact fun us hus => reads_location (.loc hfs) hus
  | dotName => exact fun us _ => reads_dotName
  | manyNil => exact readsBack_manyNil
  | manyCons h hs ih ihs => exact readsBack_manyCons h hs ih ihs
  | listNil => exact readsBack_listNil
  | listCons _ hs ih ihs => exact readsBack_listCons hs ih ihs
  | next _ ih => exact readsBack_next ih

end NameCheck.Grammar
