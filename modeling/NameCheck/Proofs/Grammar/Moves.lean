import Mathlib.Data.List.Forall2
import NameCheck.Proofs.Grammar.Reads
import NameCheck.Proofs.Grammar.Relocation

/-!
# Parsers and places

A parser looks at tokens only, and copies the places where they begin.  So on lexemes with the same
tokens at other places it takes the same steps: it fails with the same miss, or it reads the same
value at the other places and leaves as much.  Each combinator has one rule for this.
-/

namespace NameCheck

variable {α β : Type} {f : Position → Position}

/-- The same token, with a beginning that `f` gives. -/
structure Lexeme.Moves (f : Position → Position) (a b : Lexeme) : Prop where
  token : b.token = a.token
  start : b.span.start = f a.span.start

/-- The same tokens in the same order, with beginnings that `f` gives. -/
def Input.Moves (f : Position → Position) (i j : Input) : Prop :=
  List.Forall₂ (Lexeme.Moves f) i.rest j.rest

/-- The same failure, or values that correspond and rests with the same tokens. -/
inductive Outcome.Moves (f : Position → Position) (g : α → β) : Outcome α → Outcome β → Prop where
  | done {a : α} {rest rest' : Input} {missed : Option Miss} (h : rest.Moves f rest') :
      Moves f g (.done a rest missed) (.done (g a) rest' missed)
  | failed {miss : Miss} : Moves f g (.failed miss) (.failed miss)

/-- On the same tokens two parsers come to the same, up to the places. -/
def Parser.Moves (f : Position → Position) (g : α → β) (p : Parser α) (q : Parser β) : Prop :=
  ∀ ⦃i j : Input⦄, i.Moves f j → (p i).Moves f g (q j)

namespace Input.Moves

variable {i j : Input}

theorem left_eq (h : i.Moves f j) : j.left = i.left := by
  rw [i.left_eq, j.left_eq]
  exact h.length_eq.symm

/-- Both inputs are at their end, or both go on with the same token. -/
theorem next?_cases (h : i.Moves f j) :
    (i.next? = none ∧ j.next? = none) ∨
      ∃ a i' b j', i.next? = some (a, i') ∧ j.next? = some (b, j') ∧ a.Moves f b ∧
        i'.Moves f j' := by
  rw [Input.Moves] at h
  rw [← i.of_rest, ← j.of_rest]
  generalize i.rest = ts, j.rest = us at h
  cases h with
  | nil => exact Or.inl ⟨rfl, rfl⟩
  | cons hab hrest => exact Or.inr ⟨_, _, _, _, rfl, rfl, hab, hrest⟩

end Input.Moves

/-- Both parsers fail with one miss, or both read. -/
theorem Outcome.Moves.cases {g : α → β} {out : Outcome α} {out' : Outcome β}
    (h : out.Moves f g out') :
    (∃ miss, out = .failed miss ∧ out' = .failed miss) ∨
      ∃ a rest rest' missed,
        out = .done a rest missed ∧ out' = .done (g a) rest' missed ∧ rest.Moves f rest' := by
  cases h with
  | failed => exact Or.inl ⟨_, rfl, rfl⟩
  | done hrest => exact Or.inr ⟨_, _, _, _, rfl, rfl, hrest⟩

namespace Parser

variable {γ δ : Type} {g : α → β} {p : Parser α} {q : Parser β}

/-! ## Tokens -/

theorem moves_select {s : Lexeme → Option α} {t : Lexeme → Option β}
    (h : ∀ ⦃a b⦄, a.Moves f b → t b = (s a).map g) : Moves f g (select s) (select t) := by
  intro i j hij
  rcases hij.next?_cases with ⟨hi, hj⟩ | ⟨a, i', b, j', hi, hj, hab, hrest⟩
  · rw [select, select, hi, hj, hij.left_eq]
    exact .failed
  · simp only [select, hi, hj, h hab, hij.left_eq]
    cases s a with
    | none => exact .failed
    | some value => exact .done hrest

theorem moves_token (t : Token) : Moves f id (token t) (token t) := by
  intro i j hij
  rcases hij.next?_cases with ⟨hi, hj⟩ | ⟨a, i', b, j', hi, hj, hab, hrest⟩
  · rw [token, token, hi, hj, hij.left_eq]
    exact .failed
  · simp only [token, hi, hj, hab.token, hij.left_eq]
    by_cases ht : a.token = t
    · rw [if_pos ht, if_pos ht]
      exact .done hrest
    · rw [if_neg ht, if_neg ht]
      exact .failed

theorem moves_sign (s : Sign) : Moves f id (sign s) (sign s) :=
  moves_token (.sign s)

theorem moves_keyword (w : Keyword) : Moves f id (keyword w) (keyword w) :=
  moves_token (.keyword w)

theorem moves_endOfInput : Moves f id endOfInput endOfInput := by
  intro i j hij
  rcases hij.next?_cases with ⟨hi, hj⟩ | ⟨a, i', b, j', hi, hj, -, -⟩
  · rw [endOfInput, endOfInput, hi, hj]
    exact .done hij
  · rw [endOfInput, endOfInput, hi, hj, hij.left_eq]
    exact .failed

/-! ## Sequences -/

theorem moves_pure {a : α} {b : β} (h : b = g a) : Moves f g (pure a) (pure b) := by
  intro i j hij
  rw [h]
  exact .done hij

theorem Moves.bind {k : α → Parser γ} {l : β → Parser δ} {g' : γ → δ} (h : Moves f g p q)
    (hk : ∀ a, Moves f g' (k a) (l (g a))) : Moves f g' (p >>= k) (q >>= l) := by
  intro i j hij
  rw [bind_eq, bind_eq, Parser.bind, Parser.bind]
  rcases (h hij).cases with ⟨miss, hp, hq⟩ | ⟨a, rest, rest', missed, hp, hq, hrest⟩
  · rw [hp, hq]
    exact .failed
  · rw [hp, hq]
    rcases (hk a hrest).cases with ⟨miss, hk, hl⟩ | ⟨b, rest₂, rest₂', missed₂, hk, hl, hrest₂⟩
    · simp only [hk, hl]
      exact .failed
    · simp only [hk, hl]
      exact .done hrest₂

theorem Moves.map {a' : α → γ} {b' : β → δ} {g' : γ → δ} (h : Moves f g p q)
    (hg : ∀ a, b' (g a) = g' (a' a)) :
    Moves f g' (p >>= fun a => pure (a' a)) (q >>= fun b => pure (b' b)) :=
  h.bind fun a => moves_pure (hg a)

theorem Moves.between {opening closing : Sign} (h : Moves f g p q) :
    Moves f g (between opening closing p) (between opening closing q) :=
  (moves_sign opening).bind fun _ => h.bind fun _ => (moves_sign closing).bind fun _ =>
    moves_pure rfl

/-! ## Choices and repetitions -/

theorem Moves.orElse {p' : Parser α} {q' : Parser β} (h : Moves f g p q) (h' : Moves f g p' q') :
    Moves f g (p <|> p') (q <|> q') := by
  intro i j hij
  rw [orElse_eq, orElse_eq, Parser.orElse, Parser.orElse]
  rcases (h hij).cases with ⟨miss, hp, hq⟩ | ⟨a, rest, rest', missed, hp, hq, hrest⟩
  · rw [hp, hq]
    rcases (h' hij).cases with ⟨miss', hp, hq⟩ | ⟨a, rest, rest', missed, hp, hq, hrest⟩
    · simp only [hp, hq]
      exact .failed
    · simp only [hp, hq]
      exact .done hrest
  · rw [hp, hq]
    exact .done hrest

theorem Moves.optional (h : Moves f g p q) :
    Moves f (Option.map g) (optional p) (optional q) := by
  intro i j hij
  rw [Parser.optional, Parser.optional]
  rcases (h hij).cases with ⟨miss, hp, hq⟩ | ⟨a, rest, rest', missed, hp, hq, hrest⟩
  · rw [hp, hq]
    exact .done hij
  · rw [hp, hq]
    exact .done hrest

/-- On the same tokens two repetitions read as many items. -/
theorem Moves.many (h : Moves f g p q) : Moves f (List.map g) (many p) (many q) := by
  intro i j hij
  -- on what is left: both repetitions go on exactly if the item read something
  induction hn : i.left using Nat.strongRecOn generalizing i j with
  | ind n ih =>
      rw [Parser.many, Parser.many, items, items]
      rcases (h hij).cases with ⟨miss, hp, hq⟩ | ⟨a, rest, rest', missed, hp, hq, hrest⟩
      · rw [hp, hq]
        exact .done hij
      · rw [hp, hq]
        simp only [hij.left_eq, hrest.left_eq]
        by_cases hlt : rest.left < i.left
        · have hmany := ih rest.left (hn ▸ hlt) hrest rfl
          rw [Parser.many, Parser.many] at hmany
          simp only [if_pos hlt]
          generalize items p rest = read, items q rest' = read' at hmany
          obtain ⟨as, rest₂, missed₂⟩ := read
          obtain ⟨bs, rest₂', missed₂'⟩ := read'
          cases hmany with
          | done hrest₂ => exact .done hrest₂
        · simp only [if_neg hlt]
          exact .done hrest

/-- A list with separators is empty, or has a first item. -/
theorem Moves.sepBy {s : Parser Unit} (h : Moves f g p q) (hs : Moves f id s s) :
    Moves f (List.map g) (sepBy p s) (sepBy q s) := by
  have hnext : Moves f g (do s; p) (do s; q) := hs.bind fun _ => h
  have hlist : Moves f (List.map g) (do let a ← p; let as ← Parser.many (do s; p); return a :: as)
      (do let a ← q; let as ← Parser.many (do s; q); return a :: as) :=
    h.bind fun a => hnext.many.map fun as => rfl
  refine hlist.optional.map fun list? => ?_
  cases list? <;> rfl

/-! ## Recursion -/

theorem below_congr (p : Parser α) {i j : Input} (h : j.left = i.left) : below p j = below p i := by
  funext k
  rw [below, below, h]

theorem moves_recursive {g : α → α} {body : Parser α → Parser α}
    (h : ∀ p, Moves f g p p → Moves f g (body p) (body p)) :
    Moves f g (recursive body) (recursive body) := by
  intro i j hij
  -- the two inner parsers are the same one, because as much is left in both inputs
  induction hn : i.left using Nat.strongRecOn generalizing i j with
  | ind n ih =>
      rw [recursive_eq, recursive_eq, below_congr _ hij.left_eq]
      apply h _ _ hij
      intro i' j' hij'
      rw [below, below, hij'.left_eq]
      by_cases hlt : i'.left < i.left
      · rw [if_pos hlt, if_pos hlt]
        exact ih i'.left (hn ▸ hlt) hij' rfl
      · rw [if_neg hlt, if_neg hlt]
        exact .failed

theorem Moves.whole (h : Moves f g p q) : Moves f g (whole p) (whole q) :=
  h.bind fun _ => moves_endOfInput.bind fun _ => moves_pure rfl

end Parser

end NameCheck
