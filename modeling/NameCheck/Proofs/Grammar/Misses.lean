import Mathlib.Computability.Language
import Mathlib.Order.CompletePartialOrder
import NameCheck.Proofs.Grammar.Soundness

/-!
# What a miss tells

A miss tells how far reading came, and what would have been accepted there.  It is the truth about
a language if what was read begins a list of the language, and goes on to begin one with each
token that is named.  Each combinator keeps to the truth about the language that it reads, also
where an attempt is given up and the same lexemes are read as something shorter.
-/

namespace NameCheck

variable {L M : Language Lexeme} {ts us xs : List Lexeme}

/-- The beginnings of the lists of a language. -/
def beginnings (L : Language Lexeme) : Language Lexeme :=
  {xs | ∃ ys, xs ++ ys ∈ L}

theorem beginnings_mono (h : L ≤ M) : beginnings L ≤ beginnings M := by
  rintro xs ⟨ys, hys⟩
  exact ⟨ys, h hys⟩

theorem append_mem_beginnings (hx : xs ∈ L) (hu : us ∈ beginnings M) :
    xs ++ us ∈ beginnings (L * M) := by
  obtain ⟨ys, hys⟩ := hu
  exact ⟨ys, Language.mem_mul.mpr ⟨xs, hx, us ++ ys, hys, (List.append_assoc _ _ _).symm⟩⟩

theorem beginnings_mul_right (hM : ∃ ys, ys ∈ M) (hx : xs ∈ beginnings L) :
    xs ∈ beginnings (L * M) := by
  obtain ⟨ys, hys⟩ := hx
  obtain ⟨zs, hzs⟩ := hM
  exact ⟨ys ++ zs, Language.mem_mul.mpr ⟨xs ++ ys, hys, zs, hzs, List.append_assoc _ _ _⟩⟩

/-- What may come after the lexemes `xs` in a language: a token with which they still begin a list
of the language, or nothing if they are one. -/
def Continues (L : Language Lexeme) (xs : List Lexeme) : Option Token → Prop
  | some t => ∀ s, xs ++ [⟨t, s⟩] ∈ beginnings L
  | none => xs ∈ L

theorem Continues.mono {entry : Option Token} (hLM : L ≤ M) (h : Continues L xs entry) :
    Continues M xs entry := by
  cases entry with
  | none => exact hLM h
  | some t => exact fun s => beginnings_mono hLM (h s)

namespace Miss

variable {m a b : Miss}

/-- The lexemes before the place of a miss in `ts`. -/
def before (m : Miss) (ts : List Lexeme) : List Lexeme :=
  ts.take (ts.length - m.left)

theorem before_append (h : m.left ≤ us.length) : m.before (xs ++ us) = xs ++ m.before us := by
  rw [before, List.length_append, Nat.add_sub_assoc h, List.take_length_add_append, before]

/-- A miss in `ts` that tells the truth about a language. -/
structure Truthful (L : Language Lexeme) (ts : List Lexeme) (m : Miss) : Prop where
  left_le : m.left ≤ ts.length
  begun : m.before ts ∈ beginnings L
  continued : ∀ entry ∈ m.expected, Continues L (m.before ts) entry

namespace Truthful

theorem mono (hLM : L ≤ M) (h : m.Truthful L ts) : m.Truthful M ts where
  left_le := h.left_le
  begun := beginnings_mono hLM h.begun
  continued := fun entry hentry => (h.continued entry hentry).mono hLM

/-- Of two misses that tell the truth the furthest does. -/
theorem furthest (ha : a.Truthful L ts) (hb : b.Truthful L ts) : (a.furthest b).Truthful L ts := by
  rw [Miss.furthest]
  split
  · exact ha
  split
  · exact hb
  · have hleft : a.left = b.left := by omega
    have hbefore : b.before ts = a.before ts := by rw [before, before, hleft]
    refine ⟨ha.left_le, ha.begun, fun entry hentry => ?_⟩
    rcases List.mem_append.mp hentry with hentry | hentry
    · exact ha.continued entry hentry
    · exact hbefore ▸ hb.continued entry hentry

/-- A miss after something that was read. -/
theorem append (hx : xs ∈ L) (h : m.Truthful M us) : m.Truthful (L * M) (xs ++ us) := by
  have hleft : m.left ≤ (xs ++ us).length := by
    rw [List.length_append]
    exact Nat.le_add_left_of_le h.left_le
  refine ⟨hleft, ?_, fun entry hentry => ?_⟩
  · rw [before_append h.left_le]
    exact append_mem_beginnings hx h.begun
  · rw [before_append h.left_le]
    have hcontinued := h.continued entry hentry
    cases entry with
    | none => exact Language.append_mem_mul hx hcontinued
    | some t =>
        intro s
        rw [List.append_assoc]
        exact append_mem_beginnings hx (hcontinued s)

/-- A miss before something that is still to be read. -/
theorem mul_right (hM : ∃ ys, ys ∈ M) (h : m.Truthful L ts) (hend : none ∉ m.expected) :
    m.Truthful (L * M) ts := by
  refine ⟨h.left_le, beginnings_mul_right hM h.begun, fun entry hentry => ?_⟩
  have hcontinued := h.continued entry hentry
  cases entry with
  | none => exact absurd hentry hend
  | some t => exact fun s => beginnings_mul_right hM (hcontinued s)

/-- A miss at the first lexeme. -/
theorem here {expected : List (Option Token)} (hL : ∃ xs, xs ∈ L)
    (h : ∀ entry ∈ expected, Continues L [] entry) :
    Truthful L ts ⟨ts.length, expected⟩ := by
  have hbefore : before ⟨ts.length, expected⟩ ts = [] := by
    rw [before, Nat.sub_self, List.take_zero]
  refine ⟨Nat.le_refl _, ?_, fun entry hentry => ?_⟩
  · rw [hbefore]
    exact hL
  · rw [hbefore]
    exact h entry hentry

end Truthful

/-- A miss of a parser that does not ask for the end of the input: it tells the truth, and does not
name the end. -/
structure Tells (L : Language Lexeme) (ts : List Lexeme) (m : Miss) : Prop where
  truthful : m.Truthful L ts
  not_end : none ∉ m.expected

namespace Tells

theorem mono (hLM : L ≤ M) (h : m.Tells L ts) : m.Tells M ts :=
  ⟨h.truthful.mono hLM, h.not_end⟩

theorem furthest (ha : a.Tells L ts) (hb : b.Tells L ts) : (a.furthest b).Tells L ts := by
  refine ⟨ha.truthful.furthest hb.truthful, fun hend => ?_⟩
  rw [Miss.furthest] at hend
  split at hend
  · exact ha.not_end hend
  split at hend
  · exact hb.not_end hend
  · exact (List.mem_append.mp hend).elim ha.not_end hb.not_end

theorem append (hx : xs ∈ L) (h : m.Tells M us) : m.Tells (L * M) (xs ++ us) :=
  ⟨h.truthful.append hx, h.not_end⟩

theorem mul_right (hM : ∃ ys, ys ∈ M) (h : m.Tells L ts) : m.Tells (L * M) ts :=
  ⟨h.truthful.mul_right hM h.not_end, h.not_end⟩

/-- A miss at the first lexeme that names no token. -/
theorem nothing (hL : ∃ xs, xs ∈ L) : Tells L ts ⟨ts.length, []⟩ :=
  ⟨.here hL (by simp), by simp⟩

end Tells

/-- What two misses have, and the furthest of them with them, the furthest of two that may be
missing has. -/
theorem forall_furthest? {P : Miss → Prop} (hP : ∀ a b, P a → P b → P (a.furthest b))
    {a? b? : Option Miss} (ha : ∀ m ∈ a?, P m) (hb : ∀ m ∈ b?, P m) :
    ∀ m ∈ furthest? a? b?, P m := by
  cases a? with
  | none => exact hb
  | some a =>
      cases b? with
      | none => exact ha
      | some b =>
          rintro m ⟨⟩
          exact hP a b (ha a rfl) (hb b rfl)

theorem furthestOf_of_forall {P : Miss → Prop} (hP : ∀ a b, P a → P b → P (a.furthest b))
    {a? : Option Miss} (ha : ∀ m ∈ a?, P m) (hb : P b) : P (furthestOf a? b) := by
  cases a? with
  | none => exact hb
  | some a => exact hP a b (ha a rfl) hb

end Miss

/-! ## Outcomes -/

namespace Outcome

/-- The furthest miss on the way to an outcome. -/
def miss? {α : Type} : Outcome α → Option Miss
  | .done _ _ missed => missed
  | .failed miss => some miss

end Outcome

namespace Parser

variable {α β : Type} {p q : Parser α} {f : α → Parser β} {a : α} {b : β} {vs : List Lexeme}
  {missed missed' : Option Miss} {miss miss' : Miss}

theorem done_or_failed (p : Parser α) (ts : List Lexeme) :
    (∃ a us missed, p (.of ts) = .done a (.of us) missed) ∨ ∃ miss, p (.of ts) = .failed miss := by
  cases h : p (.of ts) with
  | done a rest missed => exact Or.inl ⟨a, rest.rest, missed, by rw [Input.of_rest]⟩
  | failed miss => exact Or.inr ⟨miss, rfl⟩

theorem bind_of_failed (h : p (.of ts) = .failed miss) : (p >>= f) (.of ts) = .failed miss := by
  rw [bind_eq, Parser.bind, h]

theorem bind_of_done_of_done (h : p (.of ts) = .done a (.of us) missed)
    (hf : f a (.of us) = .done b (.of vs) missed') :
    (p >>= f) (.of ts) = .done b (.of vs) (Miss.furthest? missed missed') := by
  rw [bind_eq, Parser.bind, h]
  simp only [hf]

theorem bind_of_done_of_failed (h : p (.of ts) = .done a (.of us) missed)
    (hf : f a (.of us) = .failed miss) :
    (p >>= f) (.of ts) = .failed (Miss.furthestOf missed miss) := by
  rw [bind_eq, Parser.bind, h]
  simp only [hf]

theorem orElse_of_done (h : p (.of ts) = .done a (.of us) missed) :
    (p <|> q) (.of ts) = .done a (.of us) missed := by
  rw [orElse_eq, Parser.orElse, h]

theorem orElse_of_failed_of_done (h : p (.of ts) = .failed miss)
    (hq : q (.of ts) = .done a (.of us) missed) : (p <|> q) (.of ts) = .done a (.of us) missed := by
  rw [orElse_eq, Parser.orElse, h]
  simp only [hq]

theorem orElse_of_failed_of_failed (h : p (.of ts) = .failed miss)
    (hq : q (.of ts) = .failed miss') : (p <|> q) (.of ts) = .failed (miss.furthest miss') := by
  rw [orElse_eq, Parser.orElse, h]
  simp only [hq]

theorem optional_of_done (h : p (.of ts) = .done a (.of us) missed) :
    optional p (.of ts) = .done (some a) (.of us) missed := by
  rw [optional, h]

theorem optional_of_failed (h : p (.of ts) = .failed miss) :
    optional p (.of ts) = .done none (.of ts) (some miss) := by
  rw [optional, h]

theorem many_of_failed (h : p (.of ts) = .failed miss) :
    many p (.of ts) = .done [] (.of ts) (some miss) := by
  rw [many, items, h]

theorem many_of_done {as : List α} (h : p (.of ts) = .done a (.of us) missed)
    (hlt : us.length < ts.length) (hs : many p (.of us) = .done as (.of vs) missed') :
    many p (.of ts) = .done (a :: as) (.of vs) (Miss.furthest? missed missed') := by
  rw [many] at hs
  injection hs with has hvs hmissed
  rw [many, items, h]
  simp only [Input.left_of, if_pos hlt, has, hvs, hmissed]

theorem many_of_done_of_le (h : p (.of ts) = .done a (.of us) missed)
    (hle : ts.length ≤ us.length) : many p (.of ts) = .done [a] (.of us) missed := by
  have hlt : ¬us.length < ts.length := Nat.not_lt.mpr hle
  rw [many, items, h]
  simp [hlt]

theorem exists_many (p : Parser α) (ts : List Lexeme) :
    ∃ as us missed, many p (.of ts) = .done as (.of us) missed :=
  ⟨_, (items p (.of ts)).2.1.rest, _, by rw [Input.of_rest]; rfl⟩

theorem not_fails_many : ¬Fails (many p) ts := by
  obtain ⟨as, us, missed, h⟩ := exists_many p ts
  exact Reads.not_fails ⟨missed, h⟩

/-! ## Parsers that tell the truth -/

/-- A parser of a language: what it reads is in the language, and its misses tell the truth about
it. -/
structure Tells (p : Parser α) (L : Language Lexeme) : Prop where
  value : Nonempty α
  nonempty : ∃ xs, xs ∈ L
  sound : ∀ ts a us missed, p (.of ts) = .done a (.of us) missed → ∃ xs, ts = xs ++ us ∧ xs ∈ L
  misses : ∀ ts, ∀ miss ∈ (p (.of ts)).miss?, miss.Tells L ts

/-- The lexemes for which a function has a value, one at a time. -/
def selected (f : Lexeme → Option α) : Language Lexeme :=
  {xs | ∃ t, xs = [t] ∧ (f t).isSome}

/-- One given token. -/
def only (k : Token) : Language Lexeme :=
  {xs | ∃ s, xs = [⟨k, s⟩]}

namespace Tells

theorem failed (h : Tells p L) (hp : p (.of ts) = .failed miss) : miss.Tells L ts :=
  h.misses ts miss (by rw [hp]; rfl)

theorem done (h : Tells p L) (hp : p (.of ts) = .done a (.of us) missed) :
    ∀ miss ∈ missed, miss.Tells L ts :=
  fun miss hmiss => h.misses ts miss (by rw [hp]; exact hmiss)

theorem mono (h : Tells p L) (hLM : L ≤ M) : Tells p M where
  value := h.value
  nonempty := by
    obtain ⟨xs, hxs⟩ := h.nonempty
    exact ⟨xs, hLM hxs⟩
  sound := by
    intro ts a us missed hp
    obtain ⟨xs, hts, hxs⟩ := h.sound ts a us missed hp
    exact ⟨xs, hts, hLM hxs⟩
  misses := fun ts miss hmiss => (h.misses ts miss hmiss).mono hLM

theorem pure : Tells (Pure.pure a : Parser α) 1 where
  value := ⟨a⟩
  nonempty := ⟨[], rfl⟩
  sound := by
    intro ts b us missed hp
    obtain ⟨-, rfl⟩ := reads_pure.mp ⟨missed, hp⟩
    exact ⟨[], rfl, rfl⟩
  misses := by
    rintro ts miss ⟨⟩

theorem select {f : Lexeme → Option α} (hf : ∃ t, (f t).isSome) :
    Tells (select f) (selected f) where
  value := by
    obtain ⟨t, ht⟩ := hf
    exact ⟨(f t).get ht⟩
  nonempty := by
    obtain ⟨t, ht⟩ := hf
    exact ⟨[t], t, rfl, ht⟩
  sound := by
    intro ts a us missed hp
    obtain ⟨t, rfl, ht⟩ := reads_select.mp ⟨missed, hp⟩
    exact ⟨[t], rfl, t, rfl, Option.isSome_of_eq_some ht⟩
  misses := by
    have hL : ∃ xs, xs ∈ selected f := by
      obtain ⟨t, ht⟩ := hf
      exact ⟨[t], t, rfl, ht⟩
    intro ts miss hmiss
    cases ts with
    | nil =>
        cases hmiss
        exact .nothing hL
    | cons u us =>
        simp only [Parser.select, Input.next?_cons] at hmiss
        cases hu : f u with
        | none =>
            rw [hu] at hmiss
            cases hmiss
            exact .nothing hL
        | some a =>
            rw [hu] at hmiss
            cases hmiss

theorem token {k : Token} : Tells (token k) (only k) where
  value := ⟨()⟩
  nonempty := ⟨[⟨k, ⟨1, 1⟩, ⟨1, 1⟩⟩], _, rfl⟩
  sound := by
    intro ts u us missed hp
    obtain ⟨s, rfl⟩ := reads_token.mp ⟨missed, hp⟩
    exact ⟨[⟨k, s⟩], rfl, s, rfl⟩
  misses := by
    have hhere (ts : List Lexeme) : Miss.Tells (only k) ts ⟨ts.length, [some k]⟩ := by
      refine ⟨.here ⟨[⟨k, ⟨1, 1⟩, ⟨1, 1⟩⟩], _, rfl⟩ fun entry hentry => ?_, by simp⟩
      rw [List.mem_singleton.mp hentry]
      exact fun s => ⟨[], s, rfl⟩
    intro ts miss hmiss
    cases ts with
    | nil =>
        cases hmiss
        exact hhere []
    | cons u us =>
        simp only [Parser.token, Input.next?_cons] at hmiss
        split at hmiss
        · cases hmiss
        · cases hmiss
          exact hhere (u :: us)

theorem bind (hp : Tells p L) (hf : ∀ a, Tells (f a) M) : Tells (p >>= f) (L * M) := by
  obtain ⟨a⟩ := hp.value
  obtain ⟨xs, hxs⟩ := hp.nonempty
  obtain ⟨ys, hys⟩ := (hf a).nonempty
  refine ⟨(hf a).value, ⟨xs ++ ys, Language.append_mem_mul hxs hys⟩, ?_, ?_⟩
  · intro ts b vs missed hread
    obtain ⟨a, us, ⟨_, hp'⟩, _, hf'⟩ := reads_bind.mp ⟨missed, hread⟩
    obtain ⟨xs, rfl, hxs⟩ := hp.sound _ _ _ _ hp'
    obtain ⟨ys, rfl, hys⟩ := (hf a).sound _ _ _ _ hf'
    exact ⟨xs ++ ys, (List.append_assoc _ _ _).symm, Language.append_mem_mul hxs hys⟩
  · intro ts miss hmiss
    rcases done_or_failed p ts with ⟨a, us, missed, hp'⟩ | ⟨miss', hp'⟩
    · obtain ⟨xs, rfl, hxs⟩ := hp.sound _ _ _ _ hp'
      have hfirst : ∀ m ∈ missed, m.Tells (L * M) (xs ++ us) :=
        fun m hm => (hp.done hp' m hm).mul_right (hf a).nonempty
      rcases done_or_failed (f a) us with ⟨b, vs, missed', hf'⟩ | ⟨miss', hf'⟩
      · have hsecond : ∀ m ∈ missed', m.Tells (L * M) (xs ++ us) :=
          fun m hm => ((hf a).done hf' m hm).append hxs
        rw [bind_of_done_of_done hp' hf'] at hmiss
        exact Miss.forall_furthest? (fun _ _ => .furthest) hfirst hsecond miss hmiss
      · have hsecond : miss'.Tells (L * M) (xs ++ us) := ((hf a).failed hf').append hxs
        rw [bind_of_done_of_failed hp' hf'] at hmiss
        cases hmiss
        exact Miss.furthestOf_of_forall (fun _ _ => .furthest) hfirst hsecond
    · rw [bind_of_failed hp'] at hmiss
      cases hmiss
      exact (hp.failed hp').mul_right (hf a).nonempty

/-- A value made of what was read changes nothing. -/
theorem map (hp : Tells p L) (g : α → β) : Tells (do let a ← p; return g a) L := by
  have h : Tells (do let a ← p; return g a) (L * 1) := hp.bind fun _ => .pure
  rwa [mul_one] at h

theorem between {o c : Sign} (hp : Tells p L) :
    Tells (between o c p) (only (.sign o) * (L * only (.sign c))) :=
  token.bind fun _ => hp.bind fun _ => token.map _

theorem orElse (hp : Tells p L) (hq : Tells q L) : Tells (p <|> q) L where
  value := hp.value
  nonempty := hp.nonempty
  sound := by
    intro ts a us missed hread
    rcases reads_orElse.mp ⟨missed, hread⟩ with ⟨_, hp'⟩ | ⟨-, _, hq'⟩
    · exact hp.sound _ _ _ _ hp'
    · exact hq.sound _ _ _ _ hq'
  misses := by
    intro ts miss hmiss
    rcases done_or_failed p ts with ⟨a, us, missed, hp'⟩ | ⟨miss', hp'⟩
    · rw [orElse_of_done hp'] at hmiss
      exact hp.done hp' miss hmiss
    · rcases done_or_failed q ts with ⟨a, us, missed, hq'⟩ | ⟨miss'', hq'⟩
      · rw [orElse_of_failed_of_done hp' hq'] at hmiss
        exact hq.done hq' miss hmiss
      · rw [orElse_of_failed_of_failed hp' hq'] at hmiss
        cases hmiss
        exact (hp.failed hp').furthest (hq.failed hq')

theorem optional (hp : Tells p L) : Tells (optional p) (1 + L) where
  value := ⟨none⟩
  nonempty := ⟨[], Or.inl rfl⟩
  sound := by
    intro ts a? us missed hread
    rcases reads_optional.mp ⟨missed, hread⟩ with ⟨a, -, _, hp'⟩ | ⟨-, rfl, -⟩
    · obtain ⟨xs, hts, hxs⟩ := hp.sound _ _ _ _ hp'
      exact ⟨xs, hts, Or.inr hxs⟩
    · exact ⟨[], rfl, Or.inl rfl⟩
  misses := by
    intro ts miss hmiss
    have hle : L ≤ 1 + L := fun xs hxs => Or.inr hxs
    rcases done_or_failed p ts with ⟨a, us, missed, hp'⟩ | ⟨miss', hp'⟩
    · rw [optional_of_done hp'] at hmiss
      exact (hp.done hp' miss hmiss).mono hle
    · rw [optional_of_failed hp'] at hmiss
      cases hmiss
      exact (hp.failed hp').mono hle

/-- A repetition, for a language that goes on with the items of another one. -/
theorem many (hp : Tells p L) (hnil : [] ∈ M) (hcons : L * M ≤ M) : Tells (many p) M := by
  have hle : L ≤ M := fun xs hxs =>
    hcons (List.append_nil xs ▸ Language.append_mem_mul hxs hnil)
  have hall : ∀ ts as us missed, Parser.many p (.of ts) = .done as (.of us) missed →
      (∃ xs, ts = xs ++ us ∧ xs ∈ M) ∧ ∀ miss ∈ missed, miss.Tells M ts := by
    intro ts
    induction hn : ts.length using Nat.strongRecOn generalizing ts with
    | ind n ih =>
        intro as vs missed hmany
        rcases done_or_failed p ts with ⟨a, us, missed₁, hp'⟩ | ⟨miss, hp'⟩
        · obtain ⟨xs, rfl, hxs⟩ := hp.sound _ _ _ _ hp'
          have hfirst := hp.done hp'
          rcases Nat.lt_or_ge us.length (xs ++ us).length with hlt | hge
          · obtain ⟨bs, ws, missed₂, hrest⟩ := exists_many p us
            obtain ⟨⟨ys, rfl, hys⟩, hsecond⟩ := ih us.length (hn ▸ hlt) us rfl bs ws missed₂ hrest
            rw [many_of_done hp' hlt hrest] at hmany
            injection hmany with _ hvs hmissed
            have hvs := Input.of_injective hvs
            subst hvs hmissed
            refine ⟨⟨xs ++ ys, (List.append_assoc _ _ _).symm,
              hcons (Language.append_mem_mul hxs hys)⟩, ?_⟩
            refine Miss.forall_furthest? (fun _ _ => .furthest) (fun m hm => ?_) fun m hm => ?_
            · exact (hfirst m hm).mono hle
            · exact ((hsecond m hm).append hxs).mono hcons
          · rw [many_of_done_of_le hp' hge] at hmany
            injection hmany with _ hvs hmissed
            have hvs := Input.of_injective hvs
            subst hvs hmissed
            exact ⟨⟨xs, rfl, hle hxs⟩, fun m hm => (hfirst m hm).mono hle⟩
        · rw [many_of_failed hp'] at hmany
          injection hmany with _ hvs hmissed
          have hvs := Input.of_injective hvs
          subst hvs hmissed
          refine ⟨⟨[], rfl, hnil⟩, ?_⟩
          rintro m ⟨⟩
          exact (hp.failed hp').mono hle
  refine ⟨⟨[]⟩, ⟨[], hnil⟩, fun ts as us missed hmany => (hall ts as us missed hmany).1, ?_⟩
  intro ts miss hmiss
  obtain ⟨as, us, missed, hmany⟩ := exists_many p ts
  rw [hmany] at hmiss
  exact (hall ts as us missed hmany).2 miss hmiss

/-- A recursive parser tells the truth if its body does, given an inner parser that does. -/
theorem recursive {body : Parser α → Parser α} (hvalue : Nonempty α) (hL : ∃ xs, xs ∈ L)
    (hbody : ∀ p, Tells p L → Tells (body p) L) : Tells (recursive body) L := by
  have hall : ∀ i : Input, (∀ a us missed, Parser.recursive body i = .done a (.of us) missed →
      ∃ xs, i.rest = xs ++ us ∧ xs ∈ L) ∧
      ∀ miss ∈ (Parser.recursive body i).miss?, miss.Tells L i.rest := by
    refine recursive_induction (Q := fun i out => (∀ a us missed, out = .done a (.of us) missed →
      ∃ xs, i.rest = xs ++ us ∧ xs ∈ L) ∧ ∀ miss ∈ out.miss?, miss.Tells L i.rest) ?_ ?_
    · rintro ⟨ts, left, rfl⟩
      refine ⟨fun a us missed hd => ?_, ?_⟩
      · cases hd
      · rintro miss ⟨⟩
        exact .nothing hL
    · intro p hp i
      have hp : Tells p L :=
        ⟨hvalue, hL, fun ts => (hp (.of ts)).1, fun ts => (hp (.of ts)).2⟩
      have hi := hbody p hp
      rw [← Input.of_rest i]
      exact ⟨hi.sound i.rest, hi.misses i.rest⟩
  exact ⟨hvalue, hL, fun ts => (hall (.of ts)).1, fun ts => (hall (.of ts)).2⟩

/-- Where the whole input cannot be read, the miss tells the truth, also about the end. -/
theorem whole_failed (h : Tells p L) (hfail : whole p (.of ts) = .failed miss) :
    miss.Truthful L ts := by
  rw [whole] at hfail
  rcases done_or_failed p ts with ⟨a, us, missed, hp⟩ | ⟨miss', hp⟩
  · obtain ⟨xs, rfl, hxs⟩ := h.sound _ _ _ _ hp
    have hfirst : ∀ m ∈ missed, m.Truthful L (xs ++ us) :=
      fun m hm => (h.done hp m hm).truthful
    cases us with
    | nil =>
        have hend : (do endOfInput; return a) (.of []) = .done a (.of []) none := rfl
        rw [bind_of_done_of_done hp hend] at hfail
        cases hfail
    | cons u us =>
        have hend : (do endOfInput; return a) (.of (u :: us)) =
            .failed ⟨(u :: us).length, [none]⟩ := rfl
        have hbefore : Miss.before ⟨(u :: us).length, [none]⟩ (xs ++ u :: us) = xs := by
          simp [Miss.before]
        have hsecond : Miss.Truthful L (xs ++ u :: us) ⟨(u :: us).length, [none]⟩ := by
          refine ⟨by simp, ?_, fun entry hentry => ?_⟩
          · rw [hbefore]
            exact ⟨[], (List.append_nil xs).symm ▸ hxs⟩
          · rw [hbefore, List.mem_singleton.mp hentry]
            exact hxs
        rw [bind_of_done_of_failed hp hend] at hfail
        cases hfail
        exact Miss.furthestOf_of_forall (fun _ _ => .furthest) hfirst hsecond
  · rw [bind_of_failed hp] at hfail
    cases hfail
    exact (h.failed hp).truthful

end Tells

end Parser

end NameCheck
