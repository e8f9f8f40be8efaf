import NameCheck.Proofs.Grammar.TracksExpr

/-!
# Statements are kept track of

The parsers of types, of declarations of names, of statements and of blocks keep track of what is
derived from their nonterminals.  The alternatives for a statement are told from each other by
their first token, or by the token after the location that they begin with.  The declarations of a
block may go on into what was meant as its statements, but nothing can be given up in these.
-/

namespace NameCheck.Grammar

open NameCheck.Parser

variable {ts us vs xs ys zs : List Lexeme} {t u : Lexeme} {e : Expr} {s s₁ s₂ s₃ s₄ : Span}
  {m : Sign} {H K : List Lexeme → Prop}

/-! ## Declarations of names -/

/-- The tokens of a type and a name. -/
def leadsType : Token → Bool
  | .name _ | .keyword _ => true
  | _ => false

theorem plain_of_leadsType (h : leadsType t.token = true) : Plain t := by
  constructor
  · intro heq
    simp [heq, leadsType] at h
  · intro heq
    simp [heq, leadsType] at h

theorem Derives.type_leads {type : TypeSpec} (h : Derives .type xs type) :
    ∀ t ∈ xs, leadsType t.token = true := by
  cases h with
  | basicType => exact List.forall_mem_singleton.mpr rfl
  | structType hstart =>
      rcases hstart with rfl | ⟨s, rfl⟩
      · exact List.forall_mem_singleton.mpr rfl
      · exact List.forall_mem_cons.mpr ⟨rfl, List.forall_mem_singleton.mpr rfl⟩

theorem Derives.formal_leads {d : VarDecl} (h : Derives .formal xs d) :
    ∀ t ∈ xs, leadsType t.token = true := by
  cases h with
  | formal ht =>
      exact List.forall_mem_append.mpr ⟨ht.type_leads, List.forall_mem_singleton.mpr rfl⟩

theorem tracks_optional {k : Token} (h : Optional k xs) (hplain : ∀ t ∈ xs, Plain t) :
    Tracks H (Parser.optional (token k)) xs := by
  rcases h with rfl | ⟨s, rfl⟩
  · exact .nil Tells.token.forward.optional
  · have htoken : Tracks (fun _ => True) (token k) [⟨k, s⟩] :=
      .single Tells.token.forward fun us => ⟨(), reads_token.mpr ⟨s, rfl⟩⟩
    exact (htoken.optional (fun _ _ _ => trivial) fun _ => id).of_plain hplain

theorem tracks_type {type : TypeSpec} (h : Derives .type xs type) :
    Tracks Nonterminal.type.Halted typeSpec xs := by
  cases h with
  | basicType hw =>
      exact .single tells_typeSpec.forward fun us => ⟨_, readsBack_basicType hw us trivial⟩
  | @structType ts x s hstart =>
      have hplain : ∀ t ∈ ts, Plain t := fun t ht =>
        plain_of_leadsType ((Derives.structType (x := x) (s := s) hstart).type_leads t
          (List.mem_append_left _ ht))
      have hname : Tracks Nonterminal.type.Halted structType (ts ++ [⟨.name x, s⟩]) := by
        refine (tracks_optional hstart hplain).bind (H := fun _ => False) ?_
          (fun _ => .ident_bind fun _ => .nil .pure) fun _ _ => False.elim
        rintro _ ⟨⟩ us
        rcases hstart with rfl | ⟨s', rfl⟩
        · exact stopsBefore_optional (failsHere_token (by simp))
        · exact stopsBefore_token.optional
      refine ⟨tells_typeSpec.forward, fun ys us hne hys => ?_⟩
      have hbasic : FailsHere basicType (ys ++ us) := by
        rcases hstart with rfl | ⟨s', rfl⟩ <;>
          obtain ⟨zs, rfl, -⟩ := (List.prefix_cons_iff.mp hys).resolve_left hne <;>
          exact ⟨_, rfl, rfl⟩
      exact .orElse_right (.of_failsHere hbasic) (hname.blames ys us hne hys)

theorem tracks_formal {d : VarDecl} (h : Derives .formal xs d) :
    Tracks Nonterminal.formal.Halted formal xs := by
  cases h with
  | formal ht =>
      refine (tracks_type ht).bind (fun u _ us => ?_) (fun _ => .ident_bind fun _ => .nil .pure) ?_
      · exact ht.stopsBefore (n := .type) tells_typeSpec trivial fun _ => trivial
      · exact fun _ _ => False.elim

theorem Derives.formal_stopsBefore {d : VarDecl} (h : Derives .formal xs d) :
    StopsBefore Grammar.formal xs (u :: us) :=
  h.stopsBefore (n := .formal) tells_formal trivial fun _ => trivial

theorem tracks_varDecl {d : VarDecl} (h : Derives .varDecl xs d) :
    Tracks Nonterminal.varDecl.Halted varDecl xs := by
  cases h with
  | varDecl hd =>
      exact (tracks_formal hd).bind_sign (fun _ => hd.formal_stopsBefore) (fun _ => False.elim)
        fun _ => .nil .pure

/-! ## Statements -/

/-- The alternatives for a statement, with the lexeme that tells each from the others, and whether
a location stands before it. -/
def stmtChoices (block : Parser Block) : List ((Bool × Token) × Parser Stmt) :=
  [((true, .sign .assign), assignStmt),
    ((true, .sign .plusPlus), postStmt .plusPlus .postInc),
    ((true, .sign .minusMinus), postStmt .minusMinus .postDec),
    ((false, .sign .plusPlus), preStmt .plusPlus .preInc),
    ((false, .sign .minusMinus), preStmt .minusMinus .preDec),
    ((false, .keyword .cin_), readStmt),
    ((false, .keyword .cout_), writeStmt),
    ((false, .keyword .if_), ifStmt block),
    ((false, .keyword .while_), loopStmt .while_ .whileLoop block),
    ((false, .keyword .repeat_), loopStmt .repeat_ .repeatLoop block),
    ((true, .sign .lparen), callStmt),
    ((false, .keyword .return_), returnStmt)]

theorem Derives.loc_marked (h : Derives .loc xs e) (hm : m ≠ .dot) :
    Marked leadsLocation (true, .sign m) (xs ++ ⟨.sign m, s⟩ :: zs) := by
  refine ⟨xs, s, zs, rfl, h.loc_leads, ?_, iff_of_true rfl ?_⟩
  · exact decide_eq_false hm
  · obtain ⟨t, ts, rfl, -⟩ := h.begins.exists_first rfl
    exact nofun

theorem yieldsByMark_assignStmt :
    YieldsByMark leadsLocation ((true, .sign .assign), assignStmt) := by
  refine yieldsByMark_of_tells ((tells_assignment tells_expr).bind fun _ => tells_sign.map _)
    (fun _ => plain_of_leadsLocation) ?_
  rintro _ ⟨_, ⟨xs, ⟨lhs, hl⟩, _, ⟨_, ⟨s, rfl⟩, ys, -, rfl⟩, rfl⟩, zs, -, rfl⟩
  exact (hl.loc_marked (by decide)).append

theorem yieldsByMark_postStmt {a : Action} (hm : m ≠ .dot) :
    YieldsByMark leadsLocation ((true, .sign m), postStmt m a) := by
  refine yieldsByMark_of_tells (tells_location.bind fun _ => tells_sign.bind fun _ =>
    tells_sign.map _) (fun _ => plain_of_leadsLocation) ?_
  rintro _ ⟨xs, ⟨e, he⟩, _, ⟨_, ⟨s, rfl⟩, zs, -, rfl⟩, rfl⟩
  exact he.loc_marked hm

theorem yieldsByMark_callStmt : YieldsByMark leadsLocation ((true, .sign .lparen), callStmt) := by
  refine yieldsByMark_of_tells ((tells_call tells_expr).bind fun _ => tells_sign.map _)
    (fun _ => plain_of_leadsLocation) ?_
  rintro _ ⟨xs, ⟨e, he⟩, zs, -, rfl⟩
  exact he.call_marked.append

theorem stmtChoices_yield {block : Parser Block} :
    ∀ entry ∈ stmtChoices block, YieldsByMark leadsLocation entry := by
  simp only [stmtChoices, List.forall_mem_cons]
  refine ⟨yieldsByMark_assignStmt, yieldsByMark_postStmt (by decide),
    yieldsByMark_postStmt (by decide), yieldsByMark_word rfl, yieldsByMark_word rfl,
    yieldsByMark_word rfl, yieldsByMark_word rfl, yieldsByMark_word rfl, yieldsByMark_word rfl,
    yieldsByMark_word rfl, yieldsByMark_callStmt, yieldsByMark_word rfl, nofun⟩

/-- The alternative with the mark of a statement keeps track of it for all of them. -/
theorem tracks_stmt {p : Parser Stmt} {mark : Bool × Token}
    (hmem : (mark, p) ∈ stmtChoices block) (hxs : Marked leadsLocation mark xs)
    (hp : Tracks Nonterminal.stmt.Halted p xs) :
    Tracks Nonterminal.stmt.Halted stmt xs := by
  refine ⟨(tells_stmtWith tells_block).forward, fun ys us hne hys => ?_⟩
  have hmarks : ((stmtChoices block).map Prod.fst).Nodup := by decide
  exact .firstOf stmtChoices_yield hmarks hmem hxs hne hys (hp.blames ys us hne hys)

/-- A statement that begins with a word. -/
theorem marked_word {k : Token} (hk : leadsLocation k = false) :
    Marked leadsLocation (false, k) (⟨k, s⟩ :: zs) :=
  ⟨[], s, zs, rfl, nofun, hk, by simp⟩

theorem stopsBefore_assignment {lhs rhs : Expr} (hl : Derives .loc ts lhs)
    (hr : Derives .exp us rhs) :
    StopsBefore (assignment expr) (ts ++ ⟨.sign .assign, s₁⟩ :: us)
      (⟨.sign .semicolon, s₂⟩ :: vs) := by
  have hrhs : StopsBefore expr us (⟨.sign .semicolon, s₂⟩ :: vs) := hr.exp_stopsBefore (by decide)
  refine StopsBefore.bind (stopsBefore_location hl (by decide)) fun lhs => ?_
  rw [← List.singleton_append]
  exact StopsBefore.bind stopsBefore_token fun _ => hrhs.map

theorem tracks_assignStmt {lhs rhs : Expr} (hl : Derives .loc ts lhs) (hr : Derives .exp us rhs)
    (ih : Tracks Nonterminal.exp.Halted expr us) :
    Tracks Nonterminal.stmt.Halted stmt
      (ts ++ ⟨.sign .assign, s₁⟩ :: (us ++ [⟨.sign .semicolon, s₂⟩])) := by
  refine tracks_stmt (p := assignStmt) (by simp [stmtChoices]) (hl.loc_marked (by decide)) ?_
  have hassign : Tracks Nonterminal.exp.Halted (assignment expr)
      (ts ++ ⟨.sign .assign, s₁⟩ :: us) :=
    tracks_location_sign hl (by decide) fun _ => ih.map fun _ => id
  have hstmt : Tracks Nonterminal.stmt.Halted assignStmt
      ((ts ++ ⟨.sign .assign, s₁⟩ :: us) ++ [⟨.sign .semicolon, s₂⟩]) :=
    hassign.bind_sign (fun _ => stopsBefore_assignment hl hr)
      (fun _ => failsHere_of_exp (by decide)) fun _ => .nil .pure
  rwa [List.append_assoc] at hstmt

theorem tracks_postStmt {a : Action} (hm : (m, a) ∈ postActions) (hl : Derives .loc ts e) :
    Tracks Nonterminal.stmt.Halted stmt (ts ++ [⟨.sign m, s₁⟩, ⟨.sign .semicolon, s₂⟩]) := by
  have hdot : m ≠ .dot := by
    rintro rfl
    simp [postActions] at hm
  have hmem : ((true, .sign m), postStmt m a) ∈ stmtChoices block := by
    simp only [postActions, List.mem_cons, Prod.mk.injEq, List.not_mem_nil, or_false] at hm
    rcases hm with ⟨rfl, rfl⟩ | ⟨rfl, rfl⟩ <;> simp [stmtChoices]
  exact tracks_stmt hmem (hl.loc_marked hdot)
    (tracks_location_sign hl hdot fun _ => .token_bind (.nil .pure))

/-- A location with a semicolon. -/
theorem tracks_location_semicolon {α : Type} {g : Expr → α} (hl : Derives .loc ts e) :
    Tracks H (do let loc ← location; sign .semicolon; return g loc)
      (ts ++ [⟨.sign .semicolon, s⟩]) :=
  tracks_location_sign hl (by decide) fun _ => .nil .pure

theorem tracks_preStmt {a : Action} (hm : (m, a) ∈ preActions) (hl : Derives .loc ts e) :
    Tracks Nonterminal.stmt.Halted stmt
      (⟨.sign m, s₁⟩ :: (ts ++ [⟨.sign .semicolon, s₂⟩])) := by
  have hdot : m ≠ .dot := by
    rintro rfl
    simp [preActions] at hm
  have hmem : ((false, .sign m), preStmt m a) ∈ stmtChoices block := by
    simp only [preActions, List.mem_cons, Prod.mk.injEq, List.not_mem_nil, or_false] at hm
    rcases hm with ⟨rfl, rfl⟩ | ⟨rfl, rfl⟩ <;> simp [stmtChoices]
  exact tracks_stmt hmem (marked_word (decide_eq_false hdot))
    (.token_bind (tracks_location_semicolon hl))

theorem tracks_readStmt (hl : Derives .loc ts e) :
    Tracks Nonterminal.stmt.Halted stmt
      (⟨.keyword .cin_, s₁⟩ :: ⟨.sign .read, s₂⟩ :: (ts ++ [⟨.sign .semicolon, s₃⟩])) :=
  tracks_stmt (p := readStmt) (by simp [stmtChoices]) (marked_word rfl)
    (.token_bind (.token_bind (tracks_location_semicolon hl)))

theorem tracks_writeStmt (he : Derives .exp ts e) (ih : Tracks Nonterminal.exp.Halted expr ts) :
    Tracks Nonterminal.stmt.Halted stmt
      (⟨.keyword .cout_, s₁⟩ :: ⟨.sign .write, s₂⟩ :: (ts ++ [⟨.sign .semicolon, s₃⟩])) :=
  tracks_stmt (p := writeStmt) (by simp [stmtChoices]) (marked_word rfl)
    (.token_bind (.token_bind (tracks_exp_sign he ih (by decide) fun _ => .nil .pure)))

theorem tracks_callStmt (h : Derives .call ts e)
    (ih : Tracks Nonterminal.call.Halted (call expr) ts) :
    Tracks Nonterminal.stmt.Halted stmt (ts ++ [⟨.sign .semicolon, s⟩]) := by
  refine tracks_stmt (p := callStmt) (by simp [stmtChoices]) h.call_marked.append
    (ih.bind_sign (fun us => ?_) (fun _ => False.elim) fun _ => .nil .pure)
  exact h.stopsBefore (n := .call) (tells_call tells_expr) trivial fun _ => trivial

theorem tracks_returnStmt :
    Tracks Nonterminal.stmt.Halted stmt
      [⟨.keyword .return_, s₁⟩, ⟨.sign .semicolon, s₂⟩] := by
  have hnone : Tracks (fun _ => False) (Parser.optional expr) [] :=
    .nil tells_expr.forward.optional
  refine tracks_stmt (p := returnStmt) (by simp [stmtChoices]) (marked_word rfl)
    (.token_bind (hnone.bind_sign (fun us => ?_) (fun _ => False.elim) fun _ => .nil .pure))
  exact stopsBefore_optional (failsHere_of_first (n := .exp) tells_expr rfl (by simp; rfl))

theorem tracks_returnValue (he : Derives .exp ts e) (ih : Tracks Nonterminal.exp.Halted expr ts) :
    Tracks Nonterminal.stmt.Halted stmt
      (⟨.keyword .return_, s₁⟩ :: (ts ++ [⟨.sign .semicolon, s₂⟩])) := by
  have hvalue : Tracks (fun us => FailsHere (sign .semicolon) us) (Parser.optional expr) ts := by
    refine ih.optional (fun t ht us => ?_) fun us => failsHere_of_exp (by decide)
    obtain ⟨x, xs, rfl, hfirst⟩ := he.begins.exists_first rfl
    cases ht
    exact failsHere_of_begun ⟨_, rfl, hfirst⟩ rfl
  exact tracks_stmt (p := returnStmt) (by simp [stmtChoices]) (marked_word rfl)
    (.token_bind (hvalue.bind_sign (fun _ => .optional (he.exp_stopsBefore (by decide)))
      (fun _ => id) fun _ => .nil .pure))

section Blocks

variable {b b' : Block}

theorem stopsBefore_block (h : Derives .block xs b) : StopsBefore block xs (u :: us) :=
  h.stopsBefore (n := .block) tells_block trivial fun _ => trivial

/-- A condition before something else. -/
theorem tracks_condition_bind {α : Type} {f : Expr → Parser α} (he : Derives .exp ts e)
    (ih : Tracks Nonterminal.exp.Halted expr ts) (hf : ∀ a, Tracks K (f a) zs) :
    Tracks K (condition >>= f) (⟨.sign .lparen, s₁⟩ :: (ts ++ ⟨.sign .rparen, s₂⟩ :: zs)) :=
  ih.between_bind (fun _ => he.exp_stopsBefore (by decide))
    (fun _ => failsHere_of_exp (by decide)) hf

theorem tracks_ifThen (he : Derives .exp ts e) (ih : Tracks Nonterminal.exp.Halted expr ts)
    (ihb : Tracks Nonterminal.block.Halted block us) :
    Tracks Nonterminal.stmt.Halted stmt
      (⟨.keyword .if_, s₁⟩ :: ⟨.sign .lparen, s₂⟩ :: (ts ++ ⟨.sign .rparen, s₃⟩ :: us)) := by
  have helse : Forward (Parser.optional (do keyword .else_; block)) :=
    (tells_keyword.bind fun _ => tells_block).optional.forward
  refine tracks_stmt (p := ifStmt block) (by simp [stmtChoices]) (marked_word rfl)
    (.token_bind (tracks_condition_bind he ih fun _ => ihb.bind_nil (fun _ => ?_) ?_))
  · exact helse.bind fun _ => .pure
  · exact fun _ _ => False.elim

theorem tracks_ifElse (he : Derives .exp ts e) (hb : Derives .block us b)
    (ih : Tracks Nonterminal.exp.Halted expr ts) (ihb : Tracks Nonterminal.block.Halted block us)
    (ihb' : Tracks Nonterminal.block.Halted block vs) :
    Tracks Nonterminal.stmt.Halted stmt
      (⟨.keyword .if_, s₁⟩ :: ⟨.sign .lparen, s₂⟩ ::
        (ts ++ ⟨.sign .rparen, s₃⟩ :: (us ++ ⟨.keyword .else_, s₄⟩ :: vs))) := by
  have helse : Tracks Nonterminal.stmt.Halted (Parser.optional (do keyword .else_; block))
      (⟨.keyword .else_, s₄⟩ :: vs) := by
    refine (Tracks.token_bind (f := fun _ => block) ihb').optional ?_ nofun
    rintro _ ⟨⟩ ws
    exact ⟨_, rfl, rfl⟩
  refine tracks_stmt (p := ifStmt block) (by simp [stmtChoices]) (marked_word rfl)
    (.token_bind (tracks_condition_bind he ih fun _ => ihb.bind (fun _ _ _ => ?_) ?_ ?_))
  · exact stopsBefore_block hb
  · exact fun _ => helse.map fun _ => id
  · exact fun _ _ => False.elim

theorem tracks_loopStmt {w : Keyword} {k : LoopKind} (hw : (w, k) ∈ loopWords)
    (he : Derives .exp ts e) (ih : Tracks Nonterminal.exp.Halted expr ts)
    (ihb : Tracks Nonterminal.block.Halted block us) :
    Tracks Nonterminal.stmt.Halted stmt
      (⟨.keyword w, s₁⟩ :: ⟨.sign .lparen, s₂⟩ :: (ts ++ ⟨.sign .rparen, s₃⟩ :: us)) := by
  have hmem : ((false, .keyword w), loopStmt w k block) ∈ stmtChoices block := by
    simp only [loopWords, List.mem_cons, Prod.mk.injEq, List.not_mem_nil, or_false] at hw
    rcases hw with ⟨rfl, rfl⟩ | ⟨rfl, rfl⟩ <;> simp [stmtChoices]
  exact tracks_stmt hmem (marked_word rfl)
    (.token_bind (tracks_condition_bind he ih fun _ => ihb.map fun _ => False.elim))

/-! ## Blocks -/

theorem repeatable_varDecl : Repeatable .varDecl where
  not_nullable := rfl
  tells := tells_varDecl
  ends_nil := trivial
  ends_again := fun _ _ _ => trivial
  halts := nofun

theorem repeatable_stmt : Repeatable .stmt where
  not_nullable := rfl
  tells := tells_stmtWith tells_block
  ends_nil := nofun
  ends_again := by
    rintro u us hu t ⟨⟩ heq
    simp [Nonterminal.first, startsStmt, heq] at hu
  halts := by
    rintro us ⟨t, ht, heq⟩
    refine failsHere_of_first (n := .stmt) (tells_stmtWith tells_block) rfl fun t' ht' => ?_
    cases Option.mem_unique ht ht'
    rw [heq]
    rfl

theorem Derives.varDecls_leads {ds : List VarDecl} (h : Derives (.many .varDecl) xs ds) :
    ∀ t ∈ xs, leadsType t.token = true ∨ t.token = .sign .semicolon := by
  induction ds generalizing xs with
  | nil =>
      cases h
      nofun
  | cons d ds ih =>
      cases h with
      | manyCons hd hds =>
          cases hd with
          | varDecl hf =>
              refine List.forall_mem_append.mpr ⟨List.forall_mem_append.mpr ⟨?_, ?_⟩, ih hds⟩
              · exact fun t ht => Or.inl (hf.formal_leads t ht)
              · exact List.forall_mem_singleton.mpr (Or.inr rfl)

theorem plain_of_varDecls (h : leadsType t.token = true ∨ t.token = .sign .semicolon) :
    Plain t := by
  rcases h with hlead | heq
  · exact plain_of_leadsType hlead
  · exact ⟨by simp [heq], by simp [heq]⟩

theorem Derives.varDecls_plain {ds : List VarDecl} (h : Derives (.many .varDecl) xs ds) :
    ∀ t ∈ xs, Plain t :=
  fun t ht => plain_of_varDecls (h.varDecls_leads t ht)

section Body

variable {ws : List Lexeme} {ds : List VarDecl} {ss : List Stmt}

/-- What was looked at while declarations were read looks like declarations. -/
theorem miss_of_varDecls {missed : Option Miss} {miss : Miss} (hmiss : miss ∈ missed)
    (hread : many varDecl (.of xs) = .done ds (.of us) missed) :
    ∀ t ∈ miss.before xs, leadsType t.token = true ∨ t.token = .sign .semicolon := by
  have htells := tells_many (n := .varDecl) tells_varDecl
  obtain ⟨ws, ds', hds'⟩ := (htells.done hread miss hmiss).truthful.begun
  exact fun t ht => hds'.varDecls_leads t (List.mem_append_left _ ht)

theorem stopsBefore_body (hds : Derives (.many .varDecl) ts ds)
    (hss : Derives (.many .stmt) us ss) :
    StopsBefore (do
      let decls ← many varDecl
      let stmts ← many (stmtWith block)
      return Block.mk decls stmts) (ts ++ us) (⟨.sign .rbrace, s⟩ :: vs) := by
  obtain ⟨missed, hread⟩ : Reads (many varDecl) (ts ++ (us ++ ⟨.sign .rbrace, s⟩ :: vs)) ds
      (us ++ ⟨.sign .rbrace, s⟩ :: vs) := reads_blockDecls hss hds.readsBack
  have hstmts : StopsBefore (many (stmtWith block)) us (⟨.sign .rbrace, s⟩ :: vs) := by
    refine repeatable_stmt.stopsBefore hss rfl fun us => ?_
    rintro t ⟨⟩
    simp
  refine stopsBefore_bind ⟨missed, hread⟩ ?_ hstmts.map
  rw [hread]
  refine Outcome.le_left_done ?_ fun miss hmiss => Nat.le_of_not_lt fun hlt => ?_
  · rw [List.length_append]
    exact Nat.le_add_left _ _
  · -- otherwise the bracket was looked at while declarations were read
    have hassoc : ts ++ (us ++ ⟨.sign .rbrace, s⟩ :: vs) =
        (ts ++ us ++ [⟨.sign .rbrace, s⟩]) ++ vs := by simp
    have hlooked := miss_of_varDecls hmiss hread
    rw [hassoc, Miss.before_append (Nat.le_of_lt_succ hlt)] at hlooked
    have hbracket := hlooked ⟨.sign .rbrace, s⟩ (by simp)
    simp [leadsType] at hbracket

theorem fails_varDecl_of_stmts {d : VarDecl} (hss : Derives (.many .stmt) (xs ++ us) ss)
    (hd : Derives .varDecl xs d) : Fails varDecl (xs ++ us) := by
  obtain ⟨t, ts, rfl, -⟩ := hd.begins.exists_first rfl
  generalize hxs : (t :: ts) ++ us = ys at hss
  cases hss with
  | manyNil => cases hxs
  | manyCons hst => exact fails_varDecl_of_stmt hst

/-- Where a declaration is read at the beginning of the statements, it comes to what stands after
this beginning. -/
theorem left_varDecls_le {d : VarDecl} (hds : Derives (.many .varDecl) ts ds)
    (hss : Derives (.many .stmt) us ss) (hzs : zs <+: us) (hread : Reads varDecl (zs ++ ws) d vs) :
    (many varDecl (.of (ts ++ (zs ++ ws)))).left ≤ ws.length := by
  obtain ⟨xs, hxs, hd⟩ := sound_varDecl _ _ _ hread
  have hle : vs.length ≤ ws.length := by
    -- a declaration within the beginning would begin the statements, but none does
    by_contra hlt
    have hshort : xs <+: zs := by
      refine List.prefix_of_prefix_length_le (hxs ▸ List.prefix_append xs vs)
        (List.prefix_append zs ws) ?_
      have hlength := congrArg List.length hxs
      simp only [List.length_append] at hlength
      omega
    obtain ⟨rest, rfl⟩ := hshort.trans hzs
    exact (hd.readsBack rest trivial).not_fails (fails_varDecl_of_stmts hss hd)
  have hmore := hds.many_append (.manyCons hd .manyNil)
  have hnil : ts ++ (xs ++ []) ≠ [] := by
    obtain ⟨t, rest, rfl, -⟩ := hd.begins.exists_first rfl
    simp
  have htracks := repeatable_varDecl.tracks (fun _ _ => tracks_varDecl) hmore
  have hleft : (many varDecl (.of (ts ++ (xs ++ []) ++ vs))).left ≤ vs.length :=
    htracks.left_le hmore.varDecls_plain hnil (List.prefix_refl _)
  rw [List.append_nil, List.append_assoc, ← hxs] at hleft
  exact hleft.trans hle

/-- Nothing is given up before a miss of declarations. -/
theorem le_left_varDecls {missed : Option Miss} {before after : List Lexeme}
    (hread : many varDecl (.of (ts ++ us)) = .done ds (.of us) missed)
    (hus : us = before ++ after) (hg : GivenUp before after) :
    after.length ≤ (many varDecl (.of (ts ++ us))).left := by
  rw [hread]
  refine Outcome.le_left_done ?_ fun miss hmiss => ?_
  · rw [hus, List.length_append]
    exact Nat.le_add_left _ _
  · have htells := tells_many (n := .varDecl) tells_varDecl
    have hplain : ∀ t ∈ miss.before (ts ++ us), Plain t := fun t ht =>
      plain_of_varDecls (miss_of_varDecls hmiss hread t ht)
    have hle := (htells.done hread miss hmiss).truthful.left_le
    rw [hus, ← List.append_assoc] at hplain hle
    exact hg.prepend.le_left hle hplain

theorem tracks_body (hds : Derives (.many .varDecl) ts ds) (hss : Derives (.many .stmt) us ss)
    (ih : Tracks (Nonterminal.many .stmt).Halted (many (stmtWith block)) us) :
    Tracks (Nonterminal.many .stmt).Halted (do
      let decls ← many varDecl
      let stmts ← many (stmtWith block)
      return Block.mk decls stmts) (ts ++ us) := by
  have hrest (decls : List VarDecl) : Tracks (Nonterminal.many .stmt).Halted (do
      let stmts ← many (stmtWith block)
      return Block.mk decls stmts) us := ih.map fun _ => id
  have hdecls := repeatable_varDecl.tracks (fun _ _ => tracks_varDecl) hds
  have hreaches {ys ws : List Lexeme} (h : (many varDecl (.of (ys ++ ws))).left ≤ ws.length) :
      Blames (Nonterminal.many .stmt).Halted (do
        let decls ← many varDecl
        let stmts ← many (stmtWith block)
        return Block.mk decls stmts) (ys ++ ws) ws.length :=
    Blames.bind (H := fun _ => False) (.reaches h) (fun a => (hrest a).forward)
      fun _ _ => False.elim
  refine ⟨hdecls.forward.bind fun a => (hrest a).forward, fun ys ws hne hys => ?_⟩
  -- what stands after the beginning may make one more declaration of the first statement
  rcases prefix_append_cases hys with hys | ⟨zs, hzs, rfl, hpre⟩
  · exact hreaches (hdecls.left_le hds.varDecls_plain hne hys)
  rcases reads_or_fails varDecl (zs ++ ws) with ⟨d, vs, hread⟩ | hfails
  · refine hreaches ?_
    rw [List.append_assoc]
    exact left_varDecls_le hds hss hpre hread
  · obtain ⟨missed, hread⟩ : Reads (many varDecl) (ts ++ (zs ++ ws)) ds (zs ++ ws) :=
      hds.readsBack _ ⟨rfl, trivial, hfails, fun _ _ _ _ => trivial⟩
    rw [List.append_assoc]
    exact .after_done hread (fun _ _ => le_left_varDecls hread) (hrest ds).forward
      ((hrest ds).blames zs ws hzs hpre)

theorem tracks_block (hds : Derives (.many .varDecl) ts ds) (hss : Derives (.many .stmt) us ss)
    (ih : Tracks (Nonterminal.many .stmt).Halted (many (stmtWith block)) us) :
    Tracks Nonterminal.block.Halted block
      (⟨.sign .lbrace, s₁⟩ :: (ts ++ (us ++ [⟨.sign .rbrace, s₂⟩]))) := by
  have hblock : Tracks Nonterminal.block.Halted (blockWith block)
      (⟨.sign .lbrace, s₁⟩ :: (ts ++ us ++ [⟨.sign .rbrace, s₂⟩])) := by
    refine (tracks_body hds hss ih).between (fun _ => stopsBefore_body hds hss) fun vs hvs => ?_
    rcases hvs with ⟨t, ht, heq⟩ | hbegun
    · exact failsHere_token fun t' ht' heq' => by
        cases Option.mem_unique ht ht'
        cases heq.symm.trans heq'
    · exact failsHere_of_begun (n := .stmt) hbegun rfl
  rw [block_eq]
  rwa [List.append_assoc] at hblock

end Body

end Blocks

end NameCheck.Grammar
