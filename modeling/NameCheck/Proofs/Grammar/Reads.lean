import NameCheck.Grammar.Parser

/-!
# What parsers read

A parser is looked at through two relations: that it reads a value off the front of some lexemes
and leaves the others, and that it fails on them.  Misses play no part in either.  Each combinator
has one lemma for each relation, so that a parser is read as a statement about lists of lexemes.
-/

namespace NameCheck.Parser

variable {α β : Type}

/-- `p` reads `a` off the front of `ts` and leaves `us`. -/
def Reads (p : Parser α) (ts : List Lexeme) (a : α) (us : List Lexeme) : Prop :=
  ∃ missed, p (.of ts) = .done a (.of us) missed

/-- `p` fails on `ts`. -/
def Fails (p : Parser α) (ts : List Lexeme) : Prop :=
  ∃ miss, p (.of ts) = .failed miss

theorem reads_or_fails (p : Parser α) (ts : List Lexeme) :
    (∃ a us, Reads p ts a us) ∨ Fails p ts := by
  cases h : p (.of ts) with
  | done a rest missed =>
      exact Or.inl ⟨a, rest.rest, missed, by rw [h, Input.of_rest]⟩
  | failed miss =>
      exact Or.inr ⟨miss, h⟩

theorem Input.of_injective {ts us : List Lexeme} (h : Input.of ts = Input.of us) : ts = us :=
  congrArg Input.rest h

/-- A parser reads one value and leaves one rest. -/
theorem Reads.unique {p : Parser α} {ts us vs : List Lexeme} {a b : α}
    (h : Reads p ts a us) (h' : Reads p ts b vs) : a = b ∧ us = vs := by
  obtain ⟨_, h⟩ := h
  obtain ⟨_, h'⟩ := h'
  rw [h] at h'
  injection h' with ha hr _
  exact ⟨ha, Input.of_injective hr⟩

theorem Reads.not_fails {p : Parser α} {ts us : List Lexeme} {a : α}
    (h : Reads p ts a us) : ¬Fails p ts := by
  rintro ⟨_, h'⟩
  obtain ⟨_, h⟩ := h
  rw [h] at h'
  cases h'

/-! ## Tokens -/

@[simp]
theorem reads_select {f : Lexeme → Option α} {ts us : List Lexeme} {a : α} :
    Reads (select f) ts a us ↔ ∃ t, ts = t :: us ∧ f t = some a := by
  cases ts with
  | nil => simp [Reads, select]
  | cons t rest =>
      simp only [Reads, select, Input.next?_cons]
      cases h : f t with
      | none => simp [h]
      | some b =>
          constructor
          · rintro ⟨_, hd⟩
            injection hd with hb hr _
            exact ⟨t, by rw [Input.of_injective hr], by rw [h, hb]⟩
          · rintro ⟨t', ht, hf⟩
            cases ht
            rw [h] at hf
            cases hf
            exact ⟨none, rfl⟩

@[simp]
theorem fails_select_nil {f : Lexeme → Option α} : Fails (select f) [] :=
  ⟨_, rfl⟩

@[simp]
theorem fails_select_cons {f : Lexeme → Option α} {t : Lexeme} {ts : List Lexeme} :
    Fails (select f) (t :: ts) ↔ f t = none := by
  simp only [Fails, select, Input.next?_cons]
  cases f t <;> simp

@[simp]
theorem reads_token {k : Token} {ts us : List Lexeme} {u : Unit} :
    Reads (token k) ts u us ↔ ∃ span, ts = ⟨k, span⟩ :: us := by
  cases ts with
  | nil => simp [Reads, token]
  | cons t rest =>
      simp only [Reads, token, Input.next?_cons]
      by_cases h : t.token = k
      · rw [if_pos h]
        constructor
        · rintro ⟨_, hd⟩
          injection hd with _ hr _
          exact ⟨t.span, by rw [Input.of_injective hr, ← h]⟩
        · rintro ⟨span, ht⟩
          cases ht
          exact ⟨none, rfl⟩
      · rw [if_neg h]
        constructor
        · rintro ⟨_, hd⟩
          cases hd
        · rintro ⟨span, ht⟩
          cases ht
          exact absurd rfl h

@[simp]
theorem fails_token_nil {k : Token} : Fails (token k) [] :=
  ⟨_, rfl⟩

@[simp]
theorem fails_token_cons {k : Token} {t : Lexeme} {ts : List Lexeme} :
    Fails (token k) (t :: ts) ↔ t.token ≠ k := by
  simp only [Fails, token, Input.next?_cons]
  by_cases h : t.token = k <;> simp [h]

@[simp]
theorem reads_endOfInput {ts us : List Lexeme} {u : Unit} :
    Reads endOfInput ts u us ↔ ts = [] ∧ us = [] := by
  cases ts with
  | nil =>
      constructor
      · rintro ⟨_, hd⟩
        injection hd with _ hr _
        exact ⟨rfl, (Input.of_injective hr).symm⟩
      · rintro ⟨-, rfl⟩
        exact ⟨none, rfl⟩
  | cons t ts => simp [Reads, endOfInput]

/-! ## Sequences -/

@[simp]
theorem reads_pure {a b : α} {ts us : List Lexeme} :
    Reads (pure a) ts b us ↔ b = a ∧ us = ts := by
  constructor
  · rintro ⟨_, hd⟩
    injection hd with ha hr _
    exact ⟨ha.symm, (Input.of_injective hr).symm⟩
  · rintro ⟨rfl, rfl⟩
    exact ⟨none, rfl⟩

theorem bind_eq (p : Parser α) (f : α → Parser β) (i : Input) :
    (p >>= f) i = Parser.bind p f i := rfl

@[simp]
theorem reads_bind {p : Parser α} {f : α → Parser β} {ts vs : List Lexeme} {b : β} :
    Reads (p >>= f) ts b vs ↔ ∃ a us, Reads p ts a us ∧ Reads (f a) us b vs := by
  constructor
  · rintro ⟨missed, h⟩
    rw [bind_eq, Parser.bind] at h
    cases hp : p (.of ts) with
    | failed miss =>
        rw [hp] at h
        cases h
    | done a rest missed' =>
        rw [hp] at h
        refine ⟨a, rest.rest, ⟨missed', by rw [hp, Input.of_rest]⟩, ?_⟩
        cases hf : f a rest with
        | failed miss =>
            simp only [hf] at h
            cases h
        | done b' rest' missed'' =>
            simp only [hf] at h
            injection h with hb hr _
            exact ⟨missed'', by rw [Input.of_rest, hf, hb, hr]⟩
  · rintro ⟨a, us, ⟨missed, hp⟩, missed', hf⟩
    exact ⟨Miss.furthest? missed missed', by rw [bind_eq, Parser.bind, hp]; simp only [hf]⟩

theorem Reads.bind {p : Parser α} {f : α → Parser β} {ts us vs : List Lexeme} {a : α} {b : β}
    (h : Reads p ts a us) (hf : Reads (f a) us b vs) : Reads (p >>= f) ts b vs :=
  reads_bind.mpr ⟨a, us, h, hf⟩

theorem Reads.pure {a : α} {ts : List Lexeme} : Reads (Pure.pure a) ts a ts :=
  reads_pure.mpr ⟨rfl, rfl⟩

theorem fails_bind {p : Parser α} {f : α → Parser β} {ts : List Lexeme} :
    Fails (p >>= f) ts ↔ Fails p ts ∨ ∃ a us, Reads p ts a us ∧ Fails (f a) us := by
  constructor
  · intro h
    rcases reads_or_fails p ts with ⟨a, us, hp⟩ | hp
    · refine Or.inr ⟨a, us, hp, ?_⟩
      rcases reads_or_fails (f a) us with ⟨b, vs, hf⟩ | hf
      · exact absurd h (Reads.not_fails (reads_bind.mpr ⟨a, us, hp, hf⟩))
      · exact hf
    · exact Or.inl hp
  · rintro (hp | ⟨a, us, hp, hf⟩)
    · obtain ⟨miss, hp⟩ := hp
      exact ⟨miss, by rw [bind_eq, Parser.bind, hp]⟩
    · rcases reads_or_fails (p >>= f) ts with ⟨b, vs, h⟩ | h
      · obtain ⟨a', us', hp', hf'⟩ := reads_bind.mp h
        obtain ⟨rfl, rfl⟩ := hp.unique hp'
        exact absurd hf hf'.not_fails
      · exact h

theorem fails_bind_of_fails {p : Parser α} {f : α → Parser β} {ts : List Lexeme}
    (h : Fails p ts) : Fails (p >>= f) ts :=
  fails_bind.mpr (Or.inl h)

theorem fails_bind_of_reads {p : Parser α} {f : α → Parser β} {ts us : List Lexeme} {a : α}
    (h : Reads p ts a us) (hf : Fails (f a) us) : Fails (p >>= f) ts :=
  fails_bind.mpr (Or.inr ⟨a, us, h, hf⟩)

theorem not_fails_map {p : Parser α} {g : α → β} {ts : List Lexeme} (h : ¬Fails p ts) :
    ¬Fails (do let a ← p; return g a) ts := by
  intro hfail
  rcases fails_bind.mp hfail with hfail | ⟨a, us, -, hfail⟩
  · exact h hfail
  · exact Reads.pure.not_fails hfail

/-! ## Choices -/

theorem orElse_eq (p q : Parser α) (i : Input) :
    (p <|> q) i = Parser.orElse p (fun _ => q) i := rfl

@[simp]
theorem reads_orElse {p q : Parser α} {ts us : List Lexeme} {a : α} :
    Reads (p <|> q) ts a us ↔ Reads p ts a us ∨ Fails p ts ∧ Reads q ts a us := by
  simp only [Reads, Fails, orElse_eq, Parser.orElse]
  cases p (.of ts) with
  | done b rest missed => simp
  | failed miss => cases q (.of ts) <;> simp

theorem reads_orElse_left {p q : Parser α} {ts us : List Lexeme} {a : α}
    (h : Reads p ts a us) : Reads (p <|> q) ts a us :=
  reads_orElse.mpr (Or.inl h)

theorem reads_orElse_right {p q : Parser α} {ts us : List Lexeme} {a : α}
    (hp : Fails p ts) (hq : Reads q ts a us) : Reads (p <|> q) ts a us :=
  reads_orElse.mpr (Or.inr ⟨hp, hq⟩)

theorem fails_orElse {p q : Parser α} {ts : List Lexeme} :
    Fails (p <|> q) ts ↔ Fails p ts ∧ Fails q ts := by
  simp only [Fails, orElse_eq, Parser.orElse]
  cases p (.of ts) with
  | done a rest missed => simp
  | failed miss => cases q (.of ts) <;> simp

@[simp]
theorem reads_optional {p : Parser α} {ts us : List Lexeme} {a? : Option α} :
    Reads (optional p) ts a? us ↔
      (∃ a, a? = some a ∧ Reads p ts a us) ∨ a? = none ∧ us = ts ∧ Fails p ts := by
  simp only [Reads, Fails, optional]
  cases p (.of ts) with
  | done b rest missed =>
      constructor
      · rintro ⟨_, hd⟩
        injection hd with ha hr _
        exact Or.inl ⟨b, ha.symm, missed, by rw [hr]⟩
      · rintro (⟨a, rfl, _, hd⟩ | ⟨_, _, _, hd⟩)
        · injection hd with ha hr _
          exact ⟨missed, by rw [ha, hr]⟩
        · cases hd
  | failed miss =>
      simp only [Outcome.done.injEq, reduceCtorEq, exists_false, and_false, false_or,
        Outcome.failed.injEq, exists_eq', and_true]
      constructor
      · rintro ⟨_, ha, hr, _⟩
        exact ⟨ha.symm, (Input.of_injective hr).symm⟩
      · rintro ⟨rfl, rfl⟩
        exact ⟨some miss, rfl, rfl, rfl⟩

/-! ## Repetitions -/

theorem reads_many_nil {p : Parser α} {ts : List Lexeme} (h : Fails p ts) :
    Reads (many p) ts [] ts := by
  obtain ⟨miss, hp⟩ := h
  refine ⟨some miss, ?_⟩
  rw [many, items, hp]

theorem reads_many_cons {p : Parser α} {ts us vs : List Lexeme} {a : α} {as : List α}
    (h : Reads p ts a us) (hlt : us.length < ts.length) (hs : Reads (many p) us as vs) :
    Reads (many p) ts (a :: as) vs := by
  obtain ⟨missed, hp⟩ := h
  obtain ⟨missed', hs⟩ := hs
  rw [many] at hs
  injection hs with has hvs hm
  refine ⟨Miss.furthest? missed missed', ?_⟩
  rw [many, items, hp]
  simp only [Input.left_of, if_pos hlt, has, hvs, hm]

/-- A repetition stops at once, goes on after an item that it has moved past, or ends with an
item that reads nothing. -/
theorem Reads.many_cases {p : Parser α} {ts vs : List Lexeme} {as : List α}
    (h : Reads (many p) ts as vs) :
    (as = [] ∧ vs = ts ∧ Fails p ts) ∨
      (∃ a us bs, as = a :: bs ∧ Reads p ts a us ∧ us.length < ts.length ∧
        Reads (many p) us bs vs) ∨
      ∃ a, as = [a] ∧ Reads p ts a vs := by
  obtain ⟨missed, h⟩ := h
  rw [many, items] at h
  cases hp : p (.of ts) with
  | failed miss =>
      rw [hp] at h
      injection h with has hvs _
      exact Or.inl ⟨has.symm, (Input.of_injective hvs).symm, miss, hp⟩
  | done a rest missed' =>
      rw [hp] at h
      have hread : Reads p ts a rest.rest := ⟨missed', by rw [hp, Input.of_rest]⟩
      by_cases hlt : rest.left < (Input.of ts).left
      · simp only [if_pos hlt] at h
        injection h with has hvs _
        refine Or.inr (Or.inl ⟨a, rest.rest, (items p rest).1, has.symm, hread, ?_, ?_⟩)
        · rwa [← rest.left_eq]
        · exact ⟨(items p rest).2.2, by rw [many, Input.of_rest, ← hvs]⟩
      · simp only [if_neg hlt] at h
        injection h with has hvs _
        rw [hvs] at hread
        exact Or.inr (Or.inr ⟨a, has.symm, hread⟩)

/-! ## Recursion -/

/-- A parser as it is entered from within itself at `i`: only further on. -/
def below (p : Parser α) (i : Input) : Parser α := fun j =>
  if j.left < i.left then p j else .failed ⟨j.left, []⟩

theorem recursive_eq (body : Parser α → Parser α) (i : Input) :
    recursive body i = body (below (recursive body) i) i := by
  rw [recursive]
  rfl

/-- What a body gives its parser at every input if it has it from the inner parser, and what a
failure that expects nothing has too, the recursive parser has. -/
theorem recursive_induction {Q : Input → Outcome α → Prop} {body : Parser α → Parser α}
    (hfail : ∀ j, Q j (.failed ⟨j.left, []⟩))
    (hbody : ∀ p : Parser α, (∀ j, Q j (p j)) → ∀ i, Q i (body p i)) (i : Input) :
    Q i (recursive body i) := by
  induction h : i.left using Nat.strongRecOn generalizing i with
  | ind n ih =>
      rw [recursive_eq]
      refine hbody _ (fun j => ?_) i
      by_cases hlt : j.left < i.left
      · rw [below, if_pos hlt]
        exact ih j.left (h ▸ hlt) j rfl
      · rw [below, if_neg hlt]
        exact hfail j

end NameCheck.Parser
