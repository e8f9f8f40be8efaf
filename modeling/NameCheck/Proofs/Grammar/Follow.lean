import NameCheck.Proofs.Grammar.Recursion

/-!
# Where a parser has to stop

Each nonterminal has a parser, and a condition on the lexemes that come next under which this
parser cannot go on.  The choices between productions are settled by at most three lexemes: a name
and an opening bracket make a call, a type and a name a declaration, a location and an equals sign
an assignment.
-/

namespace NameCheck.Grammar

open NameCheck.Parser

variable {α : Type} {ts us xs ys : List Lexeme} {t u : Lexeme}

/-! ## The next sign -/

/-- The next lexeme, if there is one, is none of some signs. -/
def NextNot (ms : List Sign) (us : List Lexeme) : Prop :=
  ∀ t ∈ us.head?, ∀ m ∈ ms, t.token ≠ .sign m

@[simp]
theorem nextNot_nil {ms : List Sign} : NextNot ms [] := by
  intro t ht
  cases ht

@[simp]
theorem nextNot_cons {ms : List Sign} :
    NextNot ms (t :: us) ↔ ∀ m ∈ ms, t.token ≠ .sign m := by
  simp [NextNot]

theorem NextNot.mono {ms ns : List Sign} (h : NextNot ms us) (hs : ns ⊆ ms) : NextNot ns us :=
  fun t ht m hm => h t ht m (hs hm)

theorem fails_sign_of_nextNot {m : Sign} {ms : List Sign} (h : NextNot ms us) (hm : m ∈ ms) :
    Fails (sign m) us := by
  cases us with
  | nil => exact fails_token_nil
  | cons t us => exact fails_token_cons.mpr (nextNot_cons.mp h m hm)

theorem fails_of_readsOneOf {p : Parser α} {table : List (Sign × α)} (hp : ReadsOneOf p table)
    (h : NextNot (table.map Prod.fst) us) : Fails p us := by
  rcases reads_or_fails p us with ⟨a, vs, hread⟩ | hfail
  · obtain ⟨m, s, hm, rfl⟩ := (hp _ _ _).mp hread
    exact absurd rfl (nextNot_cons.mp h m (List.mem_map_of_mem hm))
  · exact hfail

/-- The signs that would continue an expression of a level. -/
def Level.follow : Level → List Sign
  | .unary => [.dot, .lparen]
  | .prod => [.dot, .lparen, .star, .slash]
  | .sum => [.dot, .lparen, .star, .slash, .plus, .minus]
  | .rel =>
    [.dot, .lparen, .star, .slash, .plus, .minus, .eqEq, .notEq, .leq, .geq, .lt, .gt]
  | .and =>
    [.dot, .lparen, .star, .slash, .plus, .minus, .eqEq, .notEq, .leq, .geq, .lt, .gt, .and]
  | .or =>
    [.dot, .lparen, .star, .slash, .plus, .minus, .eqEq, .notEq, .leq, .geq, .lt, .gt, .and, .or]

theorem Level.follow_subset {l k : Level} (hk : l.operand? = some k) : k.follow ⊆ l.follow := by
  cases l <;> cases hk <;> decide

theorem Level.ops_subset {l : Level} : l.ops.map Prod.fst ⊆ l.follow := by
  cases l <;> decide

theorem Level.not_mem_follow {l k : Level} (hk : l.operand? = some k) :
    ∀ entry ∈ l.ops, entry.1 ∉ k.follow := by
  cases l <;> cases hk <;> decide

theorem Level.ne_of_mem_ops {l : Level} :
    ∀ entry ∈ l.ops, entry.1 ∉ [Sign.dot, Sign.assign] := by
  cases l <;> decide

/-! ## Parsers of nonterminals -/

namespace Nonterminal

/-- What may derive no lexemes at all. -/
def nullable : Nonterminal → Bool
  | .program | .many _ | .list _ => true
  | _ => false

/-- What may come after a nonterminal, so that its parser stops there. -/
def Ends : Nonterminal → List Lexeme → Prop
  | .program, us => us = []
  | .decl, us | .structDecl, us => NextNot [.semicolon] us
  | .stmt, us => ∀ t ∈ us.head?, t.token ≠ .keyword .else_
  | .exp, us => NextNot (.assign :: Level.or.follow) us
  | .level l, us => NextNot l.follow us
  | .operation l, us => ∀ k, l.operand? = some k → NextNot k.follow us
  | .atom, us => NextNot Level.unary.follow us
  | .loc, us => NextNot [.dot] us
  | .many n, us =>
    n.nullable = false ∧ n.Ends us ∧ Fails n.parser us ∧
      ∀ xs v ws, Derives n xs v → n.Ends (xs ++ ws)
  | .list n, us =>
    n.Ends us ∧ Fails n.parser us ∧ NextNot [.comma] us ∧
      ∀ s ws, n.Ends (⟨.sign .comma, s⟩ :: ws)
  | .next n, us => n.Ends us
  | _, _ => True

end Nonterminal

/-! ## Locations -/

@[simp]
theorem fails_ident_cons : Fails ident (t :: ts) ↔ ∀ x, t.token ≠ .name x := by
  obtain ⟨k, s⟩ := t
  cases k <;> simp [ident]

@[simp]
theorem fails_ident_nil : Fails ident [] :=
  fails_select_nil

theorem fails_location (h : ∀ x, t.token ≠ .name x) : Fails location (t :: ts) :=
  fails_bind_of_fails (fails_ident_cons.mpr h)

theorem reads_dotName {x : String} {s₁ s₂ : Span} :
    Reads (do sign .dot; ident) (⟨.sign .dot, s₁⟩ :: ⟨.name x, s₂⟩ :: us) ⟨x, s₂.start⟩ us :=
  reads_sign_cons.bind reads_ident_cons

theorem reads_dotNames {fs : List Ident} (h : Derives (.many .dotName) xs fs)
    (hus : NextNot [.dot] us) : Reads (many (do sign .dot; ident)) (xs ++ us) fs us := by
  induction fs generalizing xs with
  | nil =>
      cases h
      refine reads_many_nil (fails_bind_of_fails (fails_sign_of_nextNot hus ?_))
      exact List.mem_singleton_self _
  | cons f fs ih =>
      cases h with
      | manyCons hf hfs =>
          cases hf with
          | dotName =>
              refine reads_many_cons reads_dotName ?_ (ih hfs)
              simp only [List.append_eq, List.nil_append, List.length_append, List.length_cons]
              omega

theorem reads_location {e : Expr} (h : Derives .loc xs e) (hus : NextNot [.dot] us) :
    Reads location (xs ++ us) e us := by
  cases h with
  | loc hfs =>
      exact reads_ident_cons.bind ((reads_dotNames hfs hus).bind .pure)


/-! ## The first token -/

/-- The names, which begin a location or a call. -/
def startsName : Token → Bool
  | .name _ => true
  | _ => false

/-- The tokens that begin a type. -/
def startsType : Token → Bool
  | .name _ => true
  | .keyword w => w ∈ [.int_, .bool_, .void_, .struct_]
  | _ => false

/-- The tokens that begin an expression, prefixes apart. -/
def startsAtom : Token → Bool
  | .name _ | .int _ | .str _ => true
  | .keyword w => w ∈ [.true_, .false_]
  | .sign m => m = .lparen
  | .comment => false

/-- The tokens that begin a statement. -/
def startsStmt : Token → Bool
  | .name _ => true
  | .keyword w => w ∈ [.cin_, .cout_, .if_, .while_, .repeat_, .return_]
  | .sign m => m ∈ [.plusPlus, .minusMinus]
  | _ => false

namespace Nonterminal

/-- The tokens that what is derived from a nonterminal begins with. -/
def first : Nonterminal → Token → Bool
  | .program, k | .decl, k | .varDecl, k | .type, k | .fnDecl, k | .formal, k => startsType k
  | .structDecl, k => k = .keyword .struct_
  | .block, k => k = .sign .lbrace
  | .stmt, k => startsStmt k
  | .exp, k | .level _, k => startsAtom k || k ∈ unaryOps.map fun entry => .sign entry.1
  | .atom, k => startsAtom k
  | .call, k | .loc, k => startsName k
  | .dotName, k => k = .sign .dot
  | .unaryOp, k => k ∈ unaryOps.map fun entry => .sign entry.1
  | .operation l, k => k ∈ l.ops.map fun entry => .sign entry.1
  | .many n, k => n.first k
  | .list n, k => n.first k || k = .sign .comma
  | .next _, k => k = .sign .comma

/-- Lexemes that begin like what is derived from a nonterminal. -/
def Begins (n : Nonterminal) (xs : List Lexeme) : Prop :=
  (n.nullable = true ∧ xs = []) ∨ ∃ t ts, xs = t :: ts ∧ n.first t.token = true

variable {n m : Nonterminal}

theorem Begins.of_first (h : n.first t.token = true) : n.Begins (t :: ts) :=
  Or.inr ⟨t, ts, rfl, h⟩

theorem Begins.exists_first (h : n.Begins xs) (hn : n.nullable = false) :
    ∃ t ts, xs = t :: ts ∧ n.first t.token = true := by
  rcases h with ⟨hn', -⟩ | h
  · rw [hn] at hn'
    cases hn'
  · exact h

theorem Begins.append (h : n.Begins xs) (hn : n.nullable = false)
    (hm : ∀ k, n.first k = true → m.first k = true) : m.Begins (xs ++ ys) := by
  obtain ⟨t, ts, rfl, ht⟩ := h.exists_first hn
  exact .of_first (hm _ ht)

theorem Begins.mono (h : n.Begins xs) (hn : n.nullable = false)
    (hm : ∀ k, n.first k = true → m.first k = true) : m.Begins xs := by
  rw [← List.append_nil xs]
  exact h.append hn hm

end Nonterminal

open Nonterminal in
theorem Derives.begins {n : Nonterminal} {v : n.Tree} (h : Derives n xs v) : n.Begins xs := by
  have hname {k : Token} {m : Nonterminal} (hm : ∀ x, m.first (.name x) = true)
      (hk : startsName k = true) : m.first k = true := by
    cases k with
    | name x => exact hm x
    | _ => cases hk
  induction h with
  | program hds ih => exact ih
  | declStruct _ ih =>
      refine ih.mono rfl fun k hk => ?_
      rw [of_decide_eq_true hk]
      rfl
  | declFn _ ih | declVar _ ih => exact ih.mono rfl fun _ hk => hk
  | varDecl _ ih | fnDecl _ _ _ ih | formal _ ih => exact ih.append rfl fun _ hk => hk
  | basicType hw =>
      have hall : ∀ entry ∈ basicTypes, startsType (.keyword entry.1) = true := by decide
      exact .of_first (hall _ hw)
  | structType hstart =>
      rcases hstart with rfl | ⟨s, rfl⟩ <;> exact .of_first rfl
  | assignStmt _ _ ih | postStmt _ _ ih | callStmt _ ih | assign _ _ ih =>
      exact ih.append rfl fun _ => hname fun _ => rfl
  | preStmt hm =>
      have hall : ∀ entry ∈ preActions, startsStmt (.sign entry.1) = true := by decide
      exact .of_first (hall _ hm)
  | loopStmt hw =>
      have hall : ∀ entry ∈ loopWords, startsStmt (.keyword entry.1) = true := by decide
      exact .of_first (hall _ hw)
  | or _ ih => exact ih
  | level _ _ _ ih => exact ih.append rfl fun _ hk => hk
  | operation hm => exact .of_first (decide_eq_true (List.mem_map_of_mem hm))
  | unary _ _ ihos ih => 
      obtain ⟨-, rfl⟩ | ⟨t, ts, rfl, ht⟩ := ihos
      · exact ih.mono rfl fun k hk => Bool.or_eq_true_iff.mpr (Or.inl hk)
      · exact .of_first (Bool.or_eq_true_iff.mpr (Or.inr ht))
  | unaryOp hm => exact .of_first (decide_eq_true (List.mem_map_of_mem hm))
  | atomCall _ ih | atomLoc _ ih => exact ih.mono rfl fun _ => hname fun _ => rfl
  | manyNil | listNil => exact Or.inl ⟨rfl, rfl⟩
  | manyCons _ _ ih ihs =>
      obtain ⟨-, rfl⟩ | ⟨t, ts, rfl, ht⟩ := ih
      · exact ihs
      · exact .of_first ht
  | listCons _ _ ih ihs =>
      obtain ⟨-, rfl⟩ | ⟨t, ts, rfl, ht⟩ := ih
      · obtain ⟨-, rfl⟩ | ⟨t, ts, rfl, ht⟩ := ihs
        · exact Or.inl ⟨rfl, rfl⟩
        · exact .of_first (Bool.or_eq_true_iff.mpr (Or.inr ht))
      · exact .of_first (Bool.or_eq_true_iff.mpr (Or.inl ht))
  | _ => exact .of_first rfl

theorem fails_of_first {n : Nonterminal} (hn : n.nullable = false)
    (h : ∀ t ∈ us.head?, n.first t.token = false) : Fails n.parser us := by
  rcases reads_or_fails n.parser us with ⟨v, vs, hread⟩ | hfail
  · obtain ⟨xs, rfl, hxs⟩ := sound_nonterminal n _ _ _ hread
    obtain ⟨t, ts, rfl, ht⟩ := hxs.begins.exists_first hn
    rw [h t rfl] at ht
    cases ht
  · exact hfail

theorem fails_of_sign {n : Nonterminal} {m : Sign} {s : Span} (hn : n.nullable = false)
    (hm : n.first (.sign m) = false) : Fails n.parser (⟨.sign m, s⟩ :: us) := by
  apply fails_of_first hn
  intro t ht
  cases ht
  exact hm

/-! ## Choices between productions -/

variable {p : Parser Expr}

theorem fails_assignment_of_not_name (h : ∀ x, t.token ≠ .name x) :
    Fails (assignment p) (t :: ts) :=
  fails_bind_of_fails (fails_location h)

/-- A location without an equals sign after it begins no assignment. -/
theorem fails_assignment_of_loc {e : Expr} (h : Derives .loc xs e)
    (hus : NextNot [.dot, .assign] us) : Fails (assignment p) (xs ++ us) := by
  refine fails_bind_of_reads (reads_location h (hus.mono (by decide))) ?_
  exact fails_bind_of_fails (fails_sign_of_nextNot hus (by decide))

/-- A call begins with a location and an opening bracket. -/
theorem Derives.call_starts {e : Expr} (h : Derives .call xs e) :
    ∃ x s₁ s₂ ts, xs = [⟨.name x, s₁⟩] ++ ⟨.sign .lparen, s₂⟩ :: ts ∧
      Derives .loc [⟨.name x, s₁⟩] (dots ⟨x, s₁.start⟩ []) := by
  cases h with
  | call has => exact ⟨_, _, _, _, rfl, .loc .manyNil⟩

theorem fails_assignment_of_call {e : Expr} (h : Derives .call xs e) :
    Fails (assignment p) (xs ++ us) := by
  obtain ⟨x, s₁, s₂, ts, rfl, hloc⟩ := h.call_starts
  rw [List.append_assoc]
  exact fails_assignment_of_loc hloc (nextNot_cons.mpr (by simp))

theorem fails_assignment_of_atom {e : Expr} (h : Derives .atom xs e)
    (hus : NextNot [.dot, .assign] us) : Fails (assignment p) (xs ++ us) := by
  cases h with
  | atomCall he => exact fails_assignment_of_call he
  | atomLoc he => exact fails_assignment_of_loc he hus
  | _ => exact fails_assignment_of_not_name (by simp)

/-- What is derived without assignments begins no assignment. -/
theorem fails_assignment_of_level {l : Level} {e : Expr} (h : Derives (.level l) xs e)
    (hus : NextNot [.dot, .assign] us) : Fails (assignment p) (xs ++ us) := by
  induction l using Level.induction generalizing xs e us with
  | unary =>
      cases h with
      | level hk => cases hk
      | unary hos he =>
          cases hos with
          | manyNil => exact fails_assignment_of_atom he hus
          | manyCons ho =>
              cases ho with
              | unaryOp => exact fails_assignment_of_not_name (by simp)
  | step l k hk ih =>
      cases h with
      | unary => cases hk
      | level hk' he hos =>
          cases hk.symm.trans hk'
          rw [List.append_assoc]
          refine ih he ?_
          cases hos with
          | manyNil => exact hus
          | manyCons ho =>
              cases ho with
              | operation hm =>
                  refine nextNot_cons.mpr fun m hmem heq => ?_
                  cases heq
                  exact Level.ne_of_mem_ops _ hm hmem

/-! ## Declarations -/

theorem fails_formal_of_name {x : String} {s : Span}
    (h : ∀ t ∈ us.head?, startsName t.token = false) : Fails formal (⟨.name x, s⟩ :: us) := by
  have hread : Reads typeSpec (⟨.name x, s⟩ :: us) (.struct ⟨x, s.start⟩) us := by
    simp only [typeSpec, basicType, structType, keyword, reads_orElse, reads_bind, reads_optional,
      fails_select_cons, fails_token_cons, reads_ident, reads_pure]
    exact Or.inr ⟨trivial, none, _, Or.inr ⟨rfl, rfl, by simp⟩, _, _, ⟨x, s, rfl, rfl⟩, rfl, rfl⟩
  refine fails_bind_of_reads hread (fails_bind_of_fails ?_)
  cases us with
  | nil => exact fails_ident_nil
  | cons t us =>
      refine fails_ident_cons.mpr fun x hx => ?_
      simpa [hx, startsName] using h t rfl

/-- A statement that begins with a location begins no declaration. -/
theorem fails_formal_of_loc {e : Expr} (h : Derives .loc xs e)
    (hus : ∀ t ∈ us.head?, startsName t.token = false) : Fails formal (xs ++ us) := by
  cases h with
  | loc hfs =>
      refine fails_formal_of_name fun t ht => ?_
      cases hfs with
      | manyNil => exact hus t ht
      | manyCons hf =>
          cases hf with
          | dotName =>
              cases ht
              rfl

theorem fails_varDecl_of_stmt {st : Stmt} (h : Derives .stmt xs st) :
    Fails varDecl (xs ++ us) := by
  cases h with
  | assignStmt hl | postStmt _ hl =>
      rw [List.append_assoc]
      exact fails_bind_of_fails (fails_formal_of_loc hl (by simp [startsName]))
  | callStmt he =>
      cases he with
      | call => exact fails_bind_of_fails (fails_formal_of_name (by simp [startsName]))
  | loopStmt hw =>
      have hall : ∀ entry ∈ loopWords, startsType (.keyword entry.1) = false := by decide
      exact fails_of_first (n := .varDecl) rfl (by simpa [Nonterminal.first] using hall _ hw)
  | _ => exact fails_of_first (n := .varDecl) rfl (by simp [Nonterminal.first, startsType])

/-- A type and a name begin no struct. -/
theorem fails_structDecl_of_formal {d : VarDecl} (h : Derives .formal xs d) :
    Fails structDecl (xs ++ us) := by
  cases h with
  | formal ht =>
      cases ht with
      | basicType hw =>
          have hall : ∀ entry ∈ basicTypes, entry.1 ≠ .struct_ := by decide
          exact fails_bind_of_fails (fails_token_cons.mpr (by simpa using hall _ hw))
      | structType hstart =>
          rcases hstart with rfl | ⟨s, rfl⟩
          · exact fails_bind_of_fails (fails_token_cons.mpr (by simp))
          · refine fails_bind_of_reads reads_keyword_cons ?_
            refine fails_bind_of_reads reads_ident_cons ?_
            exact fails_bind_of_fails (fails_bind_of_fails (fails_token_cons.mpr (by simp)))

end NameCheck.Grammar
