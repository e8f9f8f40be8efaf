import Mathlib.Logic.Function.Iterate
import NameCheck.Proofs.Grammar.Soundness

/-!
# Recursion moves on

A recursive parser refuses to be entered from within itself where it was entered before.  The
parsers of the language never ask for that: what stands before an inner expression or block has
at least one lexeme.  So the refusal is never met, and a recursive parser equals its body with
itself as the inner parser.
-/

namespace NameCheck.Parser

variable {α β γ : Type}

/-- A parser that leaves no more than it was given. -/
def Shrinks (p : Parser α) : Prop :=
  ∀ ts a us, Reads p ts a us → us.length ≤ ts.length

/-- A parser that reads at least one lexeme. -/
def Consumes (p : Parser α) : Prop :=
  ∀ ts a us, Reads p ts a us → us.length < ts.length

theorem Sound.shrinks {p : Parser α} {G : List Lexeme → α → Prop} (h : Sound p G) :
    Shrinks p := by
  intro ts a us hread
  obtain ⟨xs, rfl, -⟩ := h _ _ _ hread
  simp

theorem Sound.consumes {p : Parser α} {G : List Lexeme → α → Prop} (h : Sound p G)
    (hG : ∀ xs a, G xs a → xs ≠ []) : Consumes p := by
  intro ts a us hread
  obtain ⟨xs, rfl, hxs⟩ := h _ _ _ hread
  have hpos := List.length_pos_iff.mpr (hG _ _ hxs)
  simp only [List.length_append]
  omega

theorem Consumes.shrinks {p : Parser α} (h : Consumes p) : Shrinks p :=
  fun ts a us hread => Nat.le_of_lt (h ts a us hread)

/-- Two parsers that do the same on every input shorter than `n`. -/
def AgreeBelow (n : Nat) (p q : Parser α) : Prop :=
  ∀ ts, ts.length < n → p (.of ts) = q (.of ts)

theorem AgreeBelow.mono {p q : Parser α} {m n : Nat} (h : AgreeBelow n p q) (hmn : m ≤ n) :
    AgreeBelow m p q :=
  fun ts hts => h ts (Nat.lt_of_lt_of_le hts hmn)

/-- `F`, given an inner parser with the property `P`, does not look at it before `k` lexemes are
read: what it does on longer inputs makes no difference. -/
def Delays (P : Parser α → Prop) (k : Nat) (F : Parser α → Parser β) : Prop :=
  ∀ p q ts, P p → AgreeBelow (ts.length + 1 - k) p q → F p (.of ts) = F q (.of ts)

namespace Delays

variable {P : Parser α → Prop} {k : Nat}

theorem const (r : Parser β) : Delays P k fun _ => r :=
  fun _ _ _ _ _ => rfl

theorem id : Delays P 0 fun p => p :=
  fun _ _ ts _ h => h ts (Nat.lt_succ_self _)

theorem mono {F : Parser α → Parser β} {m : Nat} (h : Delays P k F) (hm : m ≤ k) :
    Delays P m F :=
  fun p q ts hp hag => h p q ts hp (hag.mono (by omega))

theorem orElse {F G : Parser α → Parser β} (hF : Delays P k F) (hG : Delays P k G) :
    Delays P k fun p => F p <|> G p := by
  intro p q ts hp hag
  simp only [orElse_eq, Parser.orElse, hF p q ts hp hag, hG p q ts hp hag]

theorem optional {F : Parser α → Parser β} (hF : Delays P k F) :
    Delays P k fun p => optional (F p) := by
  intro p q ts hp hag
  simp only [Parser.optional, hF p q ts hp hag]

/-- What comes after a parser that reads something may look at the inner parser sooner. -/
theorem bind_consumes {F : Parser α → Parser γ} {G : γ → Parser α → Parser β}
    (hF : Delays P (k + 1) F) (hc : ∀ p, P p → Consumes (F p)) (hG : ∀ c, Delays P k (G c)) :
    Delays P (k + 1) fun p => F p >>= fun c => G c p := by
  intro p q ts hp hag
  simp only [bind_eq, Parser.bind, ← hF p q ts hp hag]
  cases h : F p (.of ts) with
  | failed miss => rfl
  | done c rest missed =>
      have hlt := hc p hp ts c rest.rest ⟨missed, by rw [h, Input.of_rest]⟩
      have hrest := hG c p q rest.rest hp (hag.mono (by omega))
      rw [Input.of_rest] at hrest
      simp only [hrest]

theorem bind {F : Parser α → Parser γ} {G : γ → Parser α → Parser β}
    (hF : Delays P k F) (hs : ∀ p, P p → Shrinks (F p)) (hG : ∀ c, Delays P k (G c)) :
    Delays P k fun p => F p >>= fun c => G c p := by
  intro p q ts hp hag
  simp only [bind_eq, Parser.bind, ← hF p q ts hp hag]
  cases h : F p (.of ts) with
  | failed miss => rfl
  | done c rest missed =>
      have hle := hs p hp ts c rest.rest ⟨missed, by rw [h, Input.of_rest]⟩
      have hrest := hG c p q rest.rest hp (hag.mono (by omega))
      rw [Input.of_rest] at hrest
      simp only [hrest]

theorem bind_const {F : Parser α → Parser γ} {r : γ → Parser β} (hF : Delays P k F) :
    Delays P k fun p => F p >>= r := by
  intro p q ts hp hag
  simp only [bind_eq, Parser.bind, hF p q ts hp hag]

theorem many {F : Parser α → Parser β} (hF : Delays P k F) :
    Delays P k fun p => many (F p) := by
  have hitems (p q : Parser α) (hp : P p) (i : Input) (hag : AgreeBelow (i.left + 1 - k) p q) :
      items (F p) i = items (F q) i := by
    induction h : i.left using Nat.strongRecOn generalizing i with
    | ind n ih =>
        have hi : F p i = F q i := by
          have := hF p q i.rest hp (by rwa [← i.left_eq])
          rwa [Input.of_rest] at this
        rw [items, items, hi]
        cases F q i with
        | failed miss => rfl
        | done b rest missed =>
            by_cases hlt : rest.left < i.left
            · simp only [if_pos hlt, ih rest.left (h ▸ hlt) rest (hag.mono (by omega)) rfl]
            · simp only [if_neg hlt]
  intro p q ts hp hag
  simp only [Parser.many, hitems p q hp (.of ts) hag]

end Delays

/-- A recursive parser is entered from within itself only further on in the input: it is its body
with any inner parser that does the same there, whatever that one does elsewhere. -/
def MovesOn (body : Parser α → Parser α) : Prop :=
  ∀ inner i, (∀ j : Input, j.left < i.left → inner j = recursive body j) →
    recursive body i = body inner i

section MovesOn

variable {body : Parser α → Parser α}

theorem movesOn_of_delays {G : List Lexeme → α → Prop}
    (hs : ∀ p, Sound p G → Sound (body p) G) (hd : Delays (Sound · G) 1 body) : MovesOn body := by
  intro inner i hinner
  -- Of the inner parsers only the recursive one is known to be sound, so both the given one and
  -- the one that is fenced off are compared with it.
  have hagree (q : Parser α) (hq : ∀ j : Input, j.left < i.left → q j = recursive body j) :
      body (recursive body) i = body q i := by
    have hag : AgreeBelow (i.rest.length + 1 - 1) (recursive body) q := by
      intro ts hts
      exact (hq _ (i.left_eq ▸ hts)).symm
    have heq := hd _ _ i.rest (sound_recursive hs) hag
    rwa [Input.of_rest] at heq
  have hbelow := hagree (below (recursive body) i) fun j hj => if_pos hj
  rw [recursive_eq, ← hbelow, hagree inner hinner]

/-- A recursive parser that moves on equals its body with itself as the inner parser. -/
theorem MovesOn.eq_body (h : MovesOn body) : recursive body = body (recursive body) :=
  funext fun i => h _ i fun _ _ => rfl

/-- A recursive parser that moves on is its body within its body, and so on: for each lexeme that
is left one body is enough, and what the innermost parser does is never asked. -/
theorem MovesOn.iterate (h : MovesOn body) (bottom : Parser α) {n : Nat} {i : Input}
    (hn : i.left < n) : body^[n] bottom i = recursive body i := by
  induction n generalizing i with
  | zero => exact absurd hn (Nat.not_lt_zero _)
  | succ n ih =>
      rw [Function.iterate_succ_apply']
      exact (h _ i fun j hj => ih (Nat.lt_of_lt_of_le hj (Nat.le_of_lt_succ hn))).symm

end MovesOn

end NameCheck.Parser

namespace NameCheck.Grammar

open NameCheck.Parser

variable {α β : Type}

/-! ## Parsers that read something -/

theorem consumes_token (k : Token) : Consumes (token k) := by
  intro ts u us hread
  obtain ⟨s, rfl⟩ := reads_token.mp hread
  simp

theorem consumes_ident : Consumes ident := by
  intro ts id us hread
  obtain ⟨x, s, rfl, -⟩ := reads_ident.mp hread
  simp

theorem consumes_location : Consumes location :=
  sound_location.consumes fun xs e h => by
    cases h
    simp

/-! ## Inner parsers come later -/

section Delays

variable {P : Parser α → Prop}

theorem delays_between {o c : Sign} {F : Parser α → Parser β} {k : Nat} (hF : Delays P k F) :
    Delays P (k + 1) fun p => between o c (F p) :=
  Delays.bind_consumes (.const _) (fun _ _ => consumes_token _) fun _ => hF.bind_const

theorem delays_sepBy {F : Parser α → Parser β} {k : Nat} {m : Sign} (hF : Delays P k F)
    (hs : ∀ p, P p → Shrinks (F p)) : Delays P k fun p => sepBy (F p) (sign m) := by
  have hnext : Delays P k fun p => (do sign m; F p) :=
    Delays.bind (.const _) (fun _ _ => (consumes_token _).shrinks) fun _ => hF
  have hitems : Delays P k fun p => (do
      let a ← F p
      let as ← many (do sign m; F p)
      return a :: as) :=
    Delays.bind hF hs fun _ => hnext.many.bind_const
  exact hitems.optional.bind_const

end Delays

/-! ## Expressions -/

theorem delays_call : Delays (Sound · (Derives .exp)) 1 call := by
  refine Delays.bind_consumes (.const _) (fun _ _ => consumes_ident) fun _ => ?_
  have hargs := delays_between (o := .lparen) (c := .rparen)
    (delays_sepBy (m := .comma) .id fun p (hp : Sound p (Derives .exp)) => hp.shrinks)
  exact (hargs.mono (Nat.zero_le 1)).bind_const

theorem delays_atom : Delays (Sound · (Derives .exp)) 1 atom :=
  delays_call.orElse (Delays.orElse (.const _) (Delays.orElse (.const _) (delays_between .id)))

theorem shrinks_many {n : Nonterminal} {p : Parser n.Tree} (h : Sound p (Derives n)) :
    Shrinks (many p) :=
  (sound_many h).shrinks

theorem delays_unary : Delays (Sound · (Derives .exp)) 1 unary := by
  refine Delays.bind (.const _) (fun _ _ => ?_) fun _ => delays_atom.bind_const
  exact shrinks_many (n := .unaryOp) sound_unaryOp

theorem delays_level (l : Level) : Delays (Sound · (Derives .exp)) 1 fun p => l.parser p := by
  induction l using Level.induction with
  | unary => exact delays_unary
  | step l k hk ih =>
      simp only [Level.parser_eq hk, leftAssoc]
      refine Delays.bind ih (fun p hp => (sound_level hp k).shrinks) fun _ => ?_
      refine Delays.bind_const (Delays.many ?_)
      refine Delays.bind (.const _) (fun _ _ => ?_) fun _ => ih.bind_const
      intro ts op us hread
      obtain ⟨m, s, -, rfl⟩ := (readsOneOf_levelOperator l _ _ _).mp hread
      simp

theorem delays_assignment : Delays (Sound · (Derives .exp)) 1 assignment := by
  refine Delays.bind_consumes (.const _) (fun _ _ => consumes_location) fun _ => ?_
  exact Delays.bind (.const _) (fun _ _ => (consumes_token _).shrinks) fun _ => Delays.id.bind_const

theorem movesOn_exprWith : MovesOn exprWith :=
  movesOn_of_delays (fun _ h => sound_exprWith h) (delays_assignment.orElse (delays_level .or))

theorem expr_eq : expr = exprWith expr :=
  movesOn_exprWith.eq_body

/-! ## Blocks -/

theorem shrinks_condition : Shrinks condition := by
  intro ts e us hread
  obtain ⟨s₁, vs, s₂, rfl, he⟩ := reads_between.mp hread
  have hle := sound_expr.shrinks _ _ _ he
  simp only [List.length_cons] at hle ⊢
  omega

theorem delays_ifStmt : Delays (Sound · (Derives .block)) 1 ifStmt := by
  refine Delays.bind_consumes (.const _) (fun _ _ => consumes_token _) fun _ => ?_
  refine Delays.bind (.const _) (fun _ _ => shrinks_condition) fun _ => ?_
  refine Delays.bind .id (fun p hp => hp.shrinks) fun _ => ?_
  refine Delays.bind_const (Delays.optional ?_)
  exact Delays.bind (.const _) (fun _ _ => (consumes_token _).shrinks) fun _ => .id

theorem delays_loopStmt (w : Keyword) (k : LoopKind) :
    Delays (Sound · (Derives .block)) 1 (loopStmt w k) := by
  refine Delays.bind_consumes (.const _) (fun _ _ => consumes_token _) fun _ => ?_
  refine Delays.bind (.const _) (fun _ _ => shrinks_condition) fun _ => ?_
  exact Delays.id.bind_const

theorem delays_stmtWith : Delays (Sound · (Derives .block)) 1 stmtWith :=
  .orElse (.const _) <| .orElse (.const _) <| .orElse (.const _) <| .orElse (.const _) <|
    .orElse (.const _) <| .orElse (.const _) <| .orElse (.const _) <| .orElse delays_ifStmt <|
    .orElse (delays_loopStmt _ _) <| .orElse (delays_loopStmt _ _) <| .const _

theorem delays_blockWith : Delays (Sound · (Derives .block)) 1 blockWith := by
  refine delays_between (Delays.bind (.const _) (fun _ _ => ?_) fun _ => ?_)
  · exact shrinks_many (n := .varDecl) sound_varDecl
  · exact (delays_stmtWith.many.mono (Nat.zero_le 1)).bind_const

theorem movesOn_blockWith : MovesOn blockWith :=
  movesOn_of_delays (fun _ h => sound_blockWith h) delays_blockWith

theorem block_eq : block = blockWith block :=
  movesOn_blockWith.eq_body

end NameCheck.Grammar
