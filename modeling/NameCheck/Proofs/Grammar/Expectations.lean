import NameCheck.Proofs.Grammar.Exact
import NameCheck.Proofs.Grammar.Misses

/-!
# Syntax errors tell the truth

Every parser of the language tells the truth about what is derived from its nonterminal.  So a
syntax error stands where a beginning of a program ends, and each token that it expects goes on to
begin a program, also where the parser had given up what it was reading there.
-/

namespace NameCheck.Grammar

open NameCheck.Parser

/-- What is derived from a nonterminal. -/
def Sentences (n : Nonterminal) : Language Lexeme :=
  {xs | ∃ v, Derives n xs v}

/-- A name. -/
def aName : Language Lexeme :=
  {xs | ∃ x s, xs = [⟨.name x, s⟩]}

/-- One sign of a table. -/
def oneOf {α : Type} (table : List (Sign × α)) : Language Lexeme :=
  {xs | ∃ m a s, (m, a) ∈ table ∧ xs = [⟨.sign m, s⟩]}

variable {α : Type}

/-! ## Names and signs -/

theorem tells_ident : Tells ident aName := by
  refine (Tells.select ⟨⟨.name "", ⟨1, 1⟩, ⟨1, 1⟩⟩, rfl⟩).mono ?_
  rintro _ ⟨⟨k, s⟩, rfl, ht⟩
  cases k with
  | name x => exact ⟨x, s, rfl⟩
  | _ => cases ht

theorem tells_sign {m : Sign} : Tells (sign m) (only (.sign m)) :=
  .token

theorem tells_keyword {w : Keyword} : Tells (keyword w) (only (.keyword w)) :=
  .token

theorem tells_operator {m : Sign} {op : α} {table : List (Sign × α)} (h : (m, op) ∈ table) :
    Tells (operator m op) (oneOf table) := by
  refine (tells_sign.map fun _ => op).mono ?_
  rintro _ ⟨s, rfl⟩
  exact ⟨m, op, s, h, rfl⟩

/-! ## Repetitions and lists -/

section Groups

variable {n : Nonterminal} {p : Parser n.Tree} (h : Tells p (Sentences n))
include h

theorem tells_many : Tells (many p) (Sentences (.many n)) := by
  refine h.many ⟨[], .manyNil⟩ ?_
  rintro _ ⟨xs, ⟨v, hxs⟩, ys, ⟨vs, hys⟩, rfl⟩
  exact ⟨v :: vs, .manyCons hxs hys⟩

theorem tells_next : Tells (do sign .comma; p) (Sentences (.next n)) := by
  refine (tells_sign.bind fun _ => h).mono ?_
  rintro _ ⟨_, ⟨s, rfl⟩, ys, ⟨v, hys⟩, rfl⟩
  exact ⟨v, .next hys⟩

theorem tells_sepBy : Tells (sepBy p (sign .comma)) (Sentences (.list n)) := by
  have hitems := h.bind fun a => (tells_many (n := .next n) (tells_next h)).map (a :: ·)
  refine (hitems.optional.map _).mono ?_
  rintro _ (rfl | ⟨xs, ⟨v, hxs⟩, ys, ⟨vs, hys⟩, rfl⟩)
  · exact ⟨[], .listNil⟩
  · exact ⟨v :: vs, .listCons hxs hys⟩

end Groups

/-! ## Expressions -/

theorem tells_dotName : Tells (do sign .dot; ident) (Sentences .dotName) := by
  refine (tells_sign.bind fun _ => tells_ident).mono ?_
  rintro _ ⟨_, ⟨s₁, rfl⟩, _, ⟨x, s₂, rfl⟩, rfl⟩
  exact ⟨_, .dotName⟩

theorem tells_location : Tells location (Sentences .loc) := by
  refine (tells_ident.bind fun _ => (tells_many (n := .dotName) tells_dotName).map _).mono ?_
  rintro _ ⟨_, ⟨x, s, rfl⟩, xs, ⟨fs, hfs⟩, rfl⟩
  exact ⟨_, .loc hfs⟩

/-- One lexeme that is derived from a nonterminal. -/
theorem tells_select {n : Nonterminal} {f : Lexeme → Option n.Tree} (hf : ∃ t, (f t).isSome)
    (h : ∀ t v, f t = some v → Derives n [t] v) : Tells (select f) (Sentences n) := by
  refine (Tells.select hf).mono ?_
  rintro _ ⟨t, rfl, ht⟩
  obtain ⟨v, hv⟩ := Option.isSome_iff_exists.mp ht
  exact ⟨v, h t v hv⟩

theorem Sound.derives_of_reads {n : Nonterminal} {p : Parser n.Tree} (h : Sound p (Derives n))
    {ts : List Lexeme} {v : n.Tree} (hread : Reads p ts v []) : Derives n ts v := by
  obtain ⟨xs, rfl, hxs⟩ := h _ _ _ hread
  rwa [List.append_nil]

theorem tells_literal : Tells literal (Sentences .atom) := by
  refine tells_select (n := .atom) ⟨⟨.keyword .true_, ⟨1, 1⟩, ⟨1, 1⟩⟩, rfl⟩ fun t e he => ?_
  exact Sound.derives_of_reads (n := .atom) sound_literal (reads_select.mpr ⟨t, rfl, he⟩)

theorem tells_unaryOp :
    Tells (operator .minus UnaryOp.neg <|> operator .not UnaryOp.not) (Sentences .unaryOp) := by
  have hneg : Tells (operator .minus UnaryOp.neg) (oneOf unaryOps) := tells_operator (by decide)
  have hnot : Tells (operator .not UnaryOp.not) (oneOf unaryOps) := tells_operator (by decide)
  refine (hneg.orElse hnot).mono ?_
  rintro _ ⟨m, op, s, hm, rfl⟩
  exact ⟨op, .unaryOp hm⟩

theorem tells_levelOperator {l k : Level} (hk : l.operand? = some k) :
    Tells l.operator (oneOf l.ops) := by
  cases l with
  | unary => cases hk
  | prod => exact (tells_operator (by decide)).orElse (tells_operator (by decide))
  | sum => exact (tells_operator (by decide)).orElse (tells_operator (by decide))
  | rel =>
      refine .orElse ?_ (.orElse ?_ (.orElse ?_ (.orElse ?_ (.orElse ?_ ?_)))) <;>
        exact tells_operator (by decide)
  | and => exact tells_operator (by decide)
  | or => exact tells_operator (by decide)

section Expr

variable {expr : Parser Expr} (h : Tells expr (Sentences .exp))
include h

theorem tells_call : Tells (call expr) (Sentences .call) := by
  have hargs := (tells_sepBy (n := .exp) h).between (o := .lparen) (c := .rparen)
  refine (tells_ident.bind fun _ => hargs.map _).mono ?_
  rintro _ ⟨_, ⟨x, s₁, rfl⟩, _, ⟨_, ⟨s₂, rfl⟩, _, ⟨xs, ⟨as, has⟩, _, ⟨s₃, rfl⟩, rfl⟩, rfl⟩, rfl⟩
  exact ⟨_, .call has⟩

theorem tells_atom : Tells (atom expr) (Sentences .atom) := by
  refine .orElse ?_ (.orElse ?_ (.orElse ?_ ?_))
  · refine (tells_call h).mono ?_
    rintro xs ⟨e, he⟩
    exact ⟨e, .atomCall he⟩
  · exact tells_literal
  · refine tells_location.mono ?_
    rintro xs ⟨e, he⟩
    exact ⟨e, .atomLoc he⟩
  · refine h.between.mono ?_
    rintro _ ⟨_, ⟨s₁, rfl⟩, _, ⟨xs, ⟨e, he⟩, _, ⟨s₂, rfl⟩, rfl⟩, rfl⟩
    exact ⟨e, .atomParen he⟩

theorem tells_unary : Tells (unary expr) (Sentences (.level .unary)) := by
  have hops := tells_many (n := .unaryOp) tells_unaryOp
  refine (hops.bind fun _ => (tells_atom h).map _).mono ?_
  rintro _ ⟨xs, ⟨ops, hops⟩, ys, ⟨e, he⟩, rfl⟩
  exact ⟨_, .unary hops he⟩

omit h in
theorem tells_operation {l k : Level} (hk : l.operand? = some k)
    (h : Tells (k.parser expr) (Sentences (.level k))) :
    Tells (l.operation expr) (Sentences (.operation l)) := by
  rw [Level.operation_eq hk]
  refine ((tells_levelOperator hk).bind fun _ => h.map _).mono ?_
  rintro _ ⟨_, ⟨m, op, s, hm, rfl⟩, ys, ⟨e, he⟩, rfl⟩
  exact ⟨_, .operation hm hk he⟩

theorem tells_level (l : Level) : Tells (l.parser expr) (Sentences (.level l)) := by
  induction l using Level.induction with
  | unary => exact tells_unary h
  | step l k hk ih =>
      have hothers := tells_many (n := .operation l) (tells_operation hk ih)
      rw [Level.operation_eq hk] at hothers
      rw [Level.parser_eq hk]
      refine (ih.bind fun _ => hothers.map _).mono ?_
      rintro _ ⟨xs, ⟨e, he⟩, ys, ⟨os, hos⟩, rfl⟩
      exact ⟨_, .level hk he hos⟩

/-- An assignment, as an expression or as the beginning of a statement. -/
theorem tells_assignment :
    Tells (assignment expr) (Sentences .loc * (only (.sign .assign) * Sentences .exp)) :=
  tells_location.bind fun _ => tells_sign.bind fun _ => h.map _

theorem tells_exprWith : Tells (exprWith expr) (Sentences .exp) := by
  refine .orElse ?_ ?_
  · refine (tells_assignment h).mono ?_
    rintro _ ⟨xs, ⟨lhs, hl⟩, _, ⟨_, ⟨s, rfl⟩, ys, ⟨rhs, hr⟩, rfl⟩, rfl⟩
    exact ⟨_, .assign hl hr⟩
  · refine (tells_level h .or).mono ?_
    rintro xs ⟨e, he⟩
    exact ⟨e, .or he⟩

end Expr

/-- An atom is derived at every level. -/
theorem Derives.level_of_atom {xs : List Lexeme} {e : Expr} (h : Derives .atom xs e) (l : Level) :
    Derives (.level l) xs e := by
  induction l using Level.induction with
  | unary => exact .unary .manyNil h
  | step l k hk ih => exact List.append_nil xs ▸ .level hk ih .manyNil

theorem tells_expr : Tells expr (Sentences .exp) := by
  have htrue : [⟨.keyword .true_, ⟨1, 1⟩, ⟨1, 1⟩⟩] ∈ Sentences .exp :=
    ⟨_, .or (Derives.atomTrue.level_of_atom .or)⟩
  exact .recursive ⟨.bool ⟨1, 1⟩ true⟩ ⟨_, htrue⟩ fun _ => tells_exprWith

/-! ## Declarations of names -/

theorem tells_typeSpec : Tells typeSpec (Sentences .type) := by
  refine .orElse ?_ ?_
  · refine tells_select (n := .type) ⟨⟨.keyword .int_, ⟨1, 1⟩, ⟨1, 1⟩⟩, rfl⟩ fun t type ht => ?_
    have hread : Reads typeSpec [t] type [] := reads_orElse_left (reads_select.mpr ⟨t, rfl, ht⟩)
    exact Sound.derives_of_reads (n := .type) sound_typeSpec hread
  · refine (tells_keyword.optional.bind fun _ => tells_ident.map _).mono ?_
    rintro _ ⟨ts, hts, _, ⟨x, s, rfl⟩, rfl⟩
    exact ⟨_, .structType (hts.imp id id)⟩

theorem tells_formal : Tells formal (Sentences .formal) := by
  refine (tells_typeSpec.bind fun _ => tells_ident.map _).mono ?_
  rintro _ ⟨xs, ⟨t, ht⟩, _, ⟨x, s, rfl⟩, rfl⟩
  exact ⟨_, .formal ht⟩

theorem tells_varDecl : Tells varDecl (Sentences .varDecl) := by
  refine (tells_formal.bind fun _ => tells_sign.map _).mono ?_
  rintro _ ⟨xs, ⟨d, hd⟩, _, ⟨s, rfl⟩, rfl⟩
  exact ⟨d, .varDecl hd⟩

/-! ## Statements -/

theorem tells_assignStmt : Tells assignStmt (Sentences .stmt) := by
  refine ((tells_assignment tells_expr).bind fun _ => tells_sign.map _).mono ?_
  rw [mul_assoc, mul_assoc]
  rintro _ ⟨xs, ⟨lhs, hl⟩, _, ⟨_, ⟨s₁, rfl⟩, _, ⟨ys, ⟨rhs, hr⟩, _, ⟨s₂, rfl⟩, rfl⟩, rfl⟩, rfl⟩
  exact ⟨_, .assignStmt hl hr⟩

theorem tells_postStmt {m : Sign} {a : Action} (ha : (m, a) ∈ postActions) :
    Tells (postStmt m a) (Sentences .stmt) := by
  refine (tells_location.bind fun _ => tells_sign.bind fun _ => tells_sign.map _).mono ?_
  rintro _ ⟨xs, ⟨e, he⟩, _, ⟨_, ⟨s₁, rfl⟩, _, ⟨s₂, rfl⟩, rfl⟩, rfl⟩
  exact ⟨_, .postStmt ha he⟩

theorem tells_preStmt {m : Sign} {a : Action} (ha : (m, a) ∈ preActions) :
    Tells (preStmt m a) (Sentences .stmt) := by
  refine (tells_sign.bind fun _ => tells_location.bind fun _ => tells_sign.map _).mono ?_
  rintro _ ⟨_, ⟨s₁, rfl⟩, _, ⟨xs, ⟨e, he⟩, _, ⟨s₂, rfl⟩, rfl⟩, rfl⟩
  exact ⟨_, .preStmt ha he⟩

theorem tells_readStmt : Tells readStmt (Sentences .stmt) := by
  refine (tells_keyword.bind fun _ => tells_sign.bind fun _ => tells_location.bind fun _ =>
    tells_sign.map _).mono ?_
  rintro _ ⟨_, ⟨s₁, rfl⟩, _, ⟨_, ⟨s₂, rfl⟩, _, ⟨xs, ⟨e, he⟩, _, ⟨s₃, rfl⟩, rfl⟩, rfl⟩, rfl⟩
  exact ⟨_, .readStmt he⟩

theorem tells_writeStmt : Tells writeStmt (Sentences .stmt) := by
  refine (tells_keyword.bind fun _ => tells_sign.bind fun _ => tells_expr.bind fun _ =>
    tells_sign.map _).mono ?_
  rintro _ ⟨_, ⟨s₁, rfl⟩, _, ⟨_, ⟨s₂, rfl⟩, _, ⟨xs, ⟨e, he⟩, _, ⟨s₃, rfl⟩, rfl⟩, rfl⟩, rfl⟩
  exact ⟨_, .writeStmt he⟩

theorem tells_callStmt : Tells callStmt (Sentences .stmt) := by
  refine ((tells_call tells_expr).bind fun _ => tells_sign.map _).mono ?_
  rintro _ ⟨xs, ⟨e, he⟩, _, ⟨s, rfl⟩, rfl⟩
  exact ⟨_, .callStmt he⟩

theorem tells_returnStmt : Tells returnStmt (Sentences .stmt) := by
  refine (tells_keyword.bind fun _ => tells_expr.optional.bind fun _ => tells_sign.map _).mono ?_
  rintro _ ⟨_, ⟨s₁, rfl⟩, _, ⟨_, rfl | ⟨e, he⟩, _, ⟨s₂, rfl⟩, rfl⟩, rfl⟩
  · exact ⟨_, .returnStmt⟩
  · exact ⟨_, .returnValue he⟩

section Block

variable {block : Parser Block} (h : Tells block (Sentences .block))
include h

theorem tells_ifStmt : Tells (ifStmt block) (Sentences .stmt) := by
  have helse := ((tells_keyword (w := .else_)).bind fun _ => h).optional
  have hcond := tells_expr.between (o := .lparen) (c := .rparen)
  refine (tells_keyword.bind fun _ => hcond.bind fun _ => h.bind fun _ => helse.map _).mono ?_
  rintro _ ⟨_, ⟨s₁, rfl⟩, _, ⟨_, ⟨_, ⟨s₂, rfl⟩, _, ⟨xs, ⟨e, he⟩, _, ⟨s₃, rfl⟩, rfl⟩, rfl⟩, _,
    ⟨ys, ⟨b, hb⟩, _, rfl | ⟨_, ⟨s₄, rfl⟩, zs, ⟨b', hb'⟩, rfl⟩, rfl⟩, rfl⟩, rfl⟩
  · refine ⟨.ifThen e b, ?_⟩
    simp only [List.append_assoc, List.append_nil]
    exact .ifThen he hb
  · refine ⟨.ifElse e b b', ?_⟩
    simp only [List.append_assoc]
    exact .ifElse he hb hb'

theorem tells_loopStmt {w : Keyword} {k : LoopKind} (hw : (w, k) ∈ loopWords) :
    Tells (loopStmt w k block) (Sentences .stmt) := by
  have hcond := tells_expr.between (o := .lparen) (c := .rparen)
  refine (tells_keyword.bind fun _ => hcond.bind fun _ => h.map _).mono ?_
  rintro _ ⟨_, ⟨s₁, rfl⟩, _, ⟨_, ⟨_, ⟨s₂, rfl⟩, _, ⟨xs, ⟨e, he⟩, _, ⟨s₃, rfl⟩, rfl⟩, rfl⟩,
    ys, ⟨b, hb⟩, rfl⟩, rfl⟩
  refine ⟨.loop k e b, ?_⟩
  simp only [List.append_assoc]
  exact .loopStmt hw he hb

theorem tells_stmtWith : Tells (stmtWith block) (Sentences .stmt) :=
  tells_assignStmt.orElse <| (tells_postStmt (by decide)).orElse <|
    (tells_postStmt (by decide)).orElse <| (tells_preStmt (by decide)).orElse <|
    (tells_preStmt (by decide)).orElse <| tells_readStmt.orElse <| tells_writeStmt.orElse <|
    (tells_ifStmt h).orElse <| (tells_loopStmt h (by decide)).orElse <|
    (tells_loopStmt h (by decide)).orElse <| tells_callStmt.orElse tells_returnStmt

theorem tells_blockWith : Tells (blockWith block) (Sentences .block) := by
  have hbody := (tells_many (n := .varDecl) tells_varDecl).bind fun ds =>
    (tells_many (n := .stmt) (tells_stmtWith h)).map fun ss => Block.mk ds ss
  refine (hbody.between (o := .lbrace) (c := .rbrace)).mono ?_
  rw [mul_assoc]
  rintro _ ⟨_, ⟨s₁, rfl⟩, _, ⟨xs, ⟨ds, hds⟩, _, ⟨ys, ⟨ss, hss⟩, _, ⟨s₂, rfl⟩, rfl⟩, rfl⟩, rfl⟩
  exact ⟨_, .block hds hss⟩

end Block

theorem tells_block : Tells block (Sentences .block) := by
  have hempty : [⟨.sign .lbrace, ⟨1, 1⟩, ⟨1, 1⟩⟩, ⟨.sign .rbrace, ⟨1, 1⟩, ⟨1, 1⟩⟩] ∈
      Sentences .block := ⟨_, .block .manyNil .manyNil⟩
  exact .recursive ⟨.mk [] []⟩ ⟨_, hempty⟩ fun _ => tells_blockWith

/-! ## Programs -/

theorem tells_structDecl : Tells structDecl (Sentences .structDecl) := by
  have hfields := (tells_many (n := .varDecl) tells_varDecl).between (o := .lbrace) (c := .rbrace)
  refine (tells_keyword.bind fun _ => tells_ident.bind fun _ => hfields.bind fun _ =>
    (tells_sign (m := .semicolon)).optional.map _).mono ?_
  rintro _ ⟨_, ⟨s₁, rfl⟩, _, ⟨_, ⟨x, s₂, rfl⟩, _, ⟨_, ⟨_, ⟨s₃, rfl⟩, _, ⟨xs, ⟨fs, hfs⟩, _,
    ⟨s₄, rfl⟩, rfl⟩, rfl⟩, us, hus, rfl⟩, rfl⟩, rfl⟩
  refine ⟨.struct ⟨⟨x, s₂.start⟩, fs⟩, ?_⟩
  simp only [List.append_assoc]
  exact .structDecl hfs (hus.imp id id)

theorem tells_fnDecl : Tells fnDecl (Sentences .fnDecl) := by
  have hformals := (tells_sepBy (n := .formal) tells_formal).between (o := .lparen) (c := .rparen)
  refine (tells_formal.bind fun _ => hformals.bind fun _ => tells_block.map _).mono ?_
  rintro _ ⟨xs, ⟨d, hd⟩, _, ⟨_, ⟨_, ⟨s₁, rfl⟩, _, ⟨ys, ⟨fs, hfs⟩, _, ⟨s₂, rfl⟩, rfl⟩, rfl⟩,
    zs, ⟨b, hb⟩, rfl⟩, rfl⟩
  refine ⟨.fn ⟨d.type, d.name, fs, b⟩, ?_⟩
  simp only [List.append_assoc]
  exact .fnDecl hd hfs hb

theorem tells_decl : Tells decl (Sentences .decl) := by
  refine .orElse (tells_structDecl.mono ?_) (.orElse (tells_fnDecl.mono ?_)
    ((tells_varDecl.map _).mono ?_))
  · rintro xs ⟨d, hd⟩
    exact ⟨d, .declStruct hd⟩
  · rintro xs ⟨d, hd⟩
    exact ⟨d, .declFn hd⟩
  · rintro xs ⟨d, hd⟩
    exact ⟨.var d, .declVar hd⟩

theorem program_failed {ts : List Lexeme} {miss : Miss} (h : program (.of ts) = .failed miss) :
    miss.Truthful (Sentences .program) ts := by
  have hdecls : Tells (do let decls ← many decl; return Program.mk decls) (Sentences .program) := by
    refine ((tells_many (n := .decl) tells_decl).map _).mono ?_
    rintro xs ⟨ds, hds⟩
    exact ⟨⟨ds⟩, .program hds⟩
  exact hdecls.whole_failed h

end NameCheck.Grammar

namespace NameCheck

open NameCheck.Grammar NameCheck.Parser

/-- A syntax error that stands at the `k`-th of some lexemes, or at the end after all of them: it
is placed there and names what was found there. -/
structure SyntaxError.StandsAt (error : SyntaxError) (ts : List Lexeme) (eoi : Span) (k : Nat) :
    Prop where
  le_length : k ≤ ts.length
  reason : error.reason = .unexpected
  span : error.span = (ts[k]?.map Lexeme.span).getD eoi
  found : error.found = ts[k]?.map Lexeme.token

theorem SyntaxError.standsAt_ofMiss (ts : List Lexeme) (eoi : Span) (miss : Miss) :
    (ofMiss ts eoi miss).StandsAt ts eoi (ts.length - miss.left) := by
  have hle : ts.length - miss.left ≤ ts.length := Nat.sub_le _ _
  rw [ofMiss]
  cases h : ts[ts.length - miss.left]? with
  | some lexeme => exact ⟨hle, rfl, by rw [h]; rfl, by rw [h]; rfl⟩
  | none => exact ⟨hle, rfl, by rw [h]; rfl, by rw [h]; rfl⟩

@[simp]
theorem SyntaxError.expected_ofMiss (ts : List Lexeme) (eoi : Span) (miss : Miss) :
    (ofMiss ts eoi miss).expected = miss.expected := by
  rw [ofMiss]
  cases ts[ts.length - miss.left]? <;> rfl

theorem Parser.parse_error_iff {α : Type} {p : Parser α} {ts : List Lexeme} {eoi : Span}
    {error : SyntaxError} :
    p.parse ts eoi = .error error ↔
      ∃ miss, p (.of ts) = .failed miss ∧ error = .ofMiss ts eoi miss := by
  simp only [Parser.parse, Parser.run]
  cases p (.of ts) with
  | done a rest missed =>
      constructor
      · rintro ⟨⟩
      · rintro ⟨miss, ⟨⟩, -⟩
  | failed miss =>
      constructor
      · rintro ⟨⟩
        exact ⟨miss, rfl, rfl⟩
      · rintro ⟨_, ⟨⟩, rfl⟩
        rfl

namespace Program

variable {ts : List Lexeme} {eoi : Span} {error : SyntaxError}

/-- The lexemes that are read as a program. -/
def accepted : Language Lexeme :=
  {ts | ∃ eoi p, parse ts eoi = .ok p}

theorem accepted_eq : accepted = Sentences .program := by
  ext ts
  constructor
  · rintro ⟨eoi, p, hp⟩
    exact ⟨p, parse_ok_iff_derives.mp hp⟩
  · rintro ⟨p, hp⟩
    exact ⟨⟨.first, .first⟩, p, parse_ok_iff_derives.mpr hp⟩

/-- A syntax error is true of what was read and of what may follow: it stands at one lexeme or at
the end, the lexemes before it begin a program, with each token that it expects they still do, and
if it expects the end they are a program. -/
theorem parse_error_truthful (h : parse ts eoi = .error error) :
    ∃ k, error.StandsAt ts eoi k ∧ ts.take k ∈ beginnings accepted ∧
      ∀ entry ∈ error.expected, Continues accepted (ts.take k) entry := by
  obtain ⟨miss, hmiss, rfl⟩ := Parser.parse_error_iff.mp h
  have htruthful := program_failed hmiss
  rw [accepted_eq, SyntaxError.expected_ofMiss]
  exact ⟨_, SyntaxError.standsAt_ofMiss ts eoi miss, htruthful.begun, htruthful.continued⟩

/-- In `int x y` the name `y` is not expected, but an opening bracket or a semicolon. -/
theorem parse_error_truthful_of_two_names :
    let ts : List Lexeme := [⟨.keyword .int_, ⟨1, 1⟩, ⟨1, 4⟩⟩, ⟨.name "x", ⟨1, 5⟩, ⟨1, 6⟩⟩,
      ⟨.name "y", ⟨1, 7⟩, ⟨1, 8⟩⟩]
    let eoi : Span := ⟨⟨1, 8⟩, ⟨1, 8⟩⟩
    ∃ error, parse ts eoi = .error error ∧
      error.found = some (.name "y") ∧
      error.expected = [some (.sign .lparen), some (.sign .semicolon)] ∧
      ∃ k, error.StandsAt ts eoi k ∧ ts.take k ∈ beginnings accepted ∧
        ∀ entry ∈ error.expected, Continues accepted (ts.take k) entry := by
  intro ts eoi
  have herror : (match parse ts eoi with
      | .ok _ => none
      | .error error => some (error.found, error.expected)) =
        some (some (.name "y"), [some (.sign .lparen), some (.sign .semicolon)]) := by
    decide +kernel
  cases h : parse ts eoi with
  | ok p =>
      rw [h] at herror
      cases herror
  | error error =>
      rw [h] at herror
      have herror := Option.some.inj herror
      exact ⟨error, rfl, congrArg Prod.fst herror, congrArg Prod.snd herror,
        parse_error_truthful h⟩

end Program

end NameCheck
