import NameCheck.Proofs.Grammar.GivenUp

/-!
# Keeping track

A parser keeps track of some lexemes if, given any beginning of them with anything after it, it
blames nothing that is in this beginning, except where something is given up.  Sequences,
repetitions and lists keep track of what their parts do, as long as each part stops where the next
one begins.
-/

namespace NameCheck.Grammar

open NameCheck.Parser

variable {α β : Type} {ts us vs xs ys zs : List Lexeme} {t u : Lexeme} {s : Span} {k : Token}
  {H K : List Lexeme → Prop} {p q : Parser α} {f : α → Parser β} {a : α} {L : Language Lexeme}

theorem prefix_append_cases (h : ys <+: xs ++ zs) :
    ys <+: xs ∨ ∃ ws, ws ≠ [] ∧ ys = xs ++ ws ∧ ws <+: zs := by
  rcases List.prefix_or_prefix_of_prefix h (List.prefix_append xs zs) with h' | ⟨ws, rfl⟩
  · exact Or.inl h'
  · cases ws with
    | nil => exact Or.inl (by rw [List.append_nil])
    | cons w ws => exact Or.inr ⟨w :: ws, nofun, rfl, (List.prefix_append_right_inj xs).mp h⟩

/-! ## Stopping in time -/

/-- `p` reads `xs` off and stops before `us`, with no miss after the first of these. -/
def StopsBefore (p : Parser α) (xs us : List Lexeme) : Prop :=
  ∃ a missed, p (.of (xs ++ us)) = .done a (.of us) missed ∧
    us.length ≤ (p (.of (xs ++ us))).left

/-- A parser of single lexemes misses nothing after the one that it reads. -/
theorem stopsBefore_single (ht : Tells p L) (hL : ∀ ws ∈ L, ws.length = 1)
    (h : Reads p (t :: us) a us) : StopsBefore p [t] us := by
  obtain ⟨missed, hread⟩ := h
  refine ⟨a, missed, hread, ?_⟩
  rw [List.singleton_append, hread]
  refine Outcome.le_left_done (Nat.le_refl _) fun miss hmiss => ?_
  obtain ⟨ws, hws⟩ := (ht.done hread miss hmiss).truthful.begun
  have hlength := hL _ hws
  rw [List.length_append, Miss.before, List.length_take, List.length_cons] at hlength
  omega

theorem length_of_mem_only (h : xs ∈ only k) : xs.length = 1 := by
  obtain ⟨s, rfl⟩ := h
  rfl

theorem stopsBefore_token : StopsBefore (token k) [⟨k, s⟩] us :=
  stopsBefore_single (a := ()) .token (fun _ => length_of_mem_only) (reads_token.mpr ⟨s, rfl⟩)

theorem StopsBefore.pure : StopsBefore (Pure.pure a : Parser α) [] us :=
  ⟨a, none, rfl, Nat.le_refl _⟩

/-- The first of two parts may look at what the second one reads. -/
theorem stopsBefore_bind (hread : Reads p (xs ++ (zs ++ us)) a (zs ++ us))
    (hleft : us.length ≤ (p (.of (xs ++ (zs ++ us)))).left) (hf : StopsBefore (f a) zs us) :
    StopsBefore (p >>= f) (xs ++ zs) us := by
  obtain ⟨missed, hread⟩ := hread
  obtain ⟨b, missed', hread', hleft'⟩ := hf
  have hle : (f a (.of (zs ++ us))).left ≤ (zs ++ us).length := by
    rw [hread', List.length_append]
    exact Outcome.left_done_le.trans (Nat.le_add_left _ _)
  rw [StopsBefore, List.append_assoc, left_bind hread hle]
  exact ⟨b, _, bind_of_done_of_done hread hread', Nat.le_min.mpr ⟨hleft, hleft'⟩⟩

theorem StopsBefore.bind (hp : StopsBefore p xs (zs ++ us)) (hf : ∀ a, StopsBefore (f a) zs us) :
    StopsBefore (p >>= f) (xs ++ zs) us := by
  obtain ⟨a, missed, hread, hleft⟩ := hp
  rw [List.length_append] at hleft
  exact stopsBefore_bind ⟨missed, hread⟩ ((Nat.le_add_left _ _).trans hleft) (hf a)

theorem StopsBefore.map {g : α → β} (hp : StopsBefore p xs us) :
    StopsBefore (do let a ← p; return g a) xs us := by
  rw [← List.append_nil xs]
  exact StopsBefore.bind hp fun _ => .pure

theorem StopsBefore.between {o c : Sign} {s₁ s₂ : Span}
    (h : StopsBefore p xs (⟨.sign c, s₂⟩ :: us)) :
    StopsBefore (between o c p) (⟨.sign o, s₁⟩ :: (xs ++ [⟨.sign c, s₂⟩])) us := by
  have hclose (a : α) : StopsBefore (do sign c; return a) [⟨.sign c, s₂⟩] us :=
    stopsBefore_token.map
  exact StopsBefore.bind stopsBefore_token fun _ => StopsBefore.bind h hclose

theorem StopsBefore.optional (h : StopsBefore p xs us) : StopsBefore (optional p) xs us := by
  obtain ⟨a, missed, hp, hleft⟩ := h
  have hout := optional_of_done hp
  refine ⟨some a, missed, hout, ?_⟩
  rw [hp] at hleft
  rw [hout]
  exact hleft

theorem stopsBefore_optional (h : FailsHere p us) : StopsBefore (optional p) [] us := by
  obtain ⟨miss, hp, hleft⟩ := h
  refine ⟨none, some miss, optional_of_failed hp, ?_⟩
  rw [List.nil_append, left_optional_of_failed hp hleft.le, hleft]

/-- What is derived from a nonterminal is read off without a miss after it, if the next lexeme
cannot continue it: with such a miss it could be continued after all. -/
theorem Derives.stopsBefore {n : Nonterminal} {v : n.Tree} (h : Derives n xs v)
    (ht : Tells n.parser (Sentences n)) (hnil : n.Ends []) (hu : ∀ ws, n.Ends (u :: ws)) :
    StopsBefore n.parser xs (u :: us) := by
  obtain ⟨missed, hread⟩ := h.readsBack (u :: us) (hu us)
  refine ⟨v, missed, hread, ?_⟩
  rw [hread]
  refine Outcome.le_left_done (Nat.le_refl _) fun miss hmiss => Nat.le_of_not_lt fun hlt => ?_
  -- the miss tells of something derived that is longer, and reading it back leaves nothing
  obtain ⟨ws, v', hw⟩ := (ht.done hread miss hmiss).truthful.begun
  have hassoc : xs ++ u :: us = (xs ++ [u]) ++ us := by rw [List.append_assoc]; rfl
  rw [hassoc, Miss.before_append (Nat.le_of_lt_succ hlt), List.append_assoc, List.append_assoc]
    at hw
  have hwhole := hw.readsBack [] hnil
  rw [List.append_nil] at hwhole
  exact List.cons_ne_nil _ _ ((h.readsBack _ (hu _)).unique hwhole).2

/-- A parser of a nonterminal fails at a lexeme that begins nothing of it. -/
theorem failsHere_of_first {n : Nonterminal} (ht : Tells n.parser (Sentences n))
    (hn : n.nullable = false) (h : ∀ t ∈ us.head?, n.first t.token = false) :
    FailsHere n.parser us := by
  obtain ⟨miss, hfail⟩ := fails_of_first hn h
  have hmiss := (ht.failed hfail).truthful
  refine ⟨miss, hfail, hmiss.left_le.antisymm (Nat.le_of_not_lt fun hlt => ?_)⟩
  obtain ⟨ws, v, hw⟩ := hmiss.begun
  obtain ⟨t, rest, hrest, hfirst⟩ := hw.begins.exists_first hn
  cases us with
  | nil => exact Nat.not_lt_zero _ hlt
  | cons u us =>
      have hbefore : miss.before (u :: us) = u :: miss.before us := by
        rw [List.length_cons] at hlt
        rw [← List.singleton_append, Miss.before_append (by omega)]
        rfl
      rw [hbefore] at hrest
      obtain rfl : u = t := List.head_eq_of_cons_eq hrest
      rw [h u rfl] at hfirst
      cases hfirst

/-! ## Keeping track of lexemes -/

/-- Along every beginning of `xs`, whatever stands after it, `p` puts the blame after it or on what
it gives up; what it leaves then has the property `H`. -/
structure Tracks (H : List Lexeme → Prop) (p : Parser α) (xs : List Lexeme) : Prop where
  forward : Forward p
  blames : ∀ ys us, ys ≠ [] → ys <+: xs → Blames H p (ys ++ us) us.length

namespace Tracks

theorem nil (h : Forward p) : Tracks H p [] :=
  ⟨h, fun _ _ hne hys => absurd (List.prefix_nil.mp hys) hne⟩

theorem mono (h : Tracks H p xs) (hHK : ∀ us, H us → K us) : Tracks K p xs :=
  ⟨h.forward, fun ys us hne hys => (h.blames ys us hne hys).mono hHK⟩

/-- Where nothing can be given up, the outcome comes to what stands after. -/
theorem left_le (h : Tracks H p xs) (hplain : ∀ t ∈ xs, Plain t) (hne : ys ≠ [])
    (hys : ys <+: xs) : (p (.of (ys ++ us))).left ≤ us.length := by
  cases h.blames ys us hne hys with
  | reaches hn => exact hn
  | @givesUp before after hts hg hat _ =>
      have hys' : ys <+: before ++ after := hts ▸ List.prefix_append ys us
      have hle := hg.length_le hys' fun t ht => hplain t (hys.subset ht)
      rw [← hts, List.length_append] at hle
      exact hat.trans_le (by omega)

theorem of_plain (h : Tracks H p xs) (hplain : ∀ t ∈ xs, Plain t) : Tracks K p xs :=
  ⟨h.forward, fun _ _ hne hys => .reaches (h.left_le hplain hne hys)⟩

/-- One lexeme that is read. -/
theorem single (hfwd : Forward p) (h : ∀ us, ∃ a, Reads p (t :: us) a us) : Tracks H p [t] := by
  refine ⟨hfwd, fun ys us hne hys => ?_⟩
  obtain rfl : ys = [t] := by
    rcases List.prefix_cons_iff.mp hys with rfl | ⟨zs, rfl, hzs⟩
    · exact absurd rfl hne
    · rw [List.prefix_nil.mp hzs]
  obtain ⟨a, missed, hread⟩ := h us
  refine .reaches ?_
  rw [List.singleton_append, hread]
  exact Outcome.left_done_le

theorem bind (hp : Tracks H p xs) (hstops : ∀ u ∈ zs.head?, ∀ us, StopsBefore p xs (u :: us))
    (hf : ∀ a, Tracks K (f a) zs) (hH : ∀ a us, H us → Refuses K (f a) us) :
    Tracks K (p >>= f) (xs ++ zs) := by
  refine ⟨hp.forward.bind fun a => (hf a).forward, fun ys us hne hys => ?_⟩
  -- the beginning that is known ends in the first part, or reaches into the second one
  rcases prefix_append_cases hys with hys | ⟨ws, hws, rfl, hpre⟩
  · exact (hp.blames ys us hne hys).bind (fun a => (hf a).forward) hH
  · cases ws with
    | nil => exact absurd rfl hws
    | cons w ws =>
        have hw : w ∈ zs.head? := by
          obtain ⟨_, rfl⟩ := hpre
          rfl
        obtain ⟨a, missed, hread, hleft⟩ := hstops w hw (ws ++ us)
        rw [List.append_assoc, List.cons_append]
        refine .after_done hread (fun before after hus _ => ?_) (hf a).forward
          ((hf a).blames (w :: ws) us hws hpre)
        refine Nat.le_trans ?_ hleft
        rw [hus, List.length_append]
        exact Nat.le_add_left _ _

theorem bind_nil (hp : Tracks H p xs) (hf : ∀ a, Forward (f a))
    (hH : ∀ a us, H us → Refuses K (f a) us) : Tracks K (p >>= f) xs := by
  rw [← List.append_nil xs]
  exact hp.bind nofun (fun a => .nil (hf a)) hH

theorem map {g : α → β} (hp : Tracks H p xs) (hHK : ∀ us, H us → K us) :
    Tracks K (do let a ← p; return g a) xs :=
  hp.bind_nil (fun _ => .pure) fun _ us hus => .pure (hHK us hus)

/-- A single lexeme before something else. -/
theorem single_bind (ht : Tells p L) (hL : ∀ ws ∈ L, ws.length = 1)
    (h : ∀ us, ∃ a, Reads p (t :: us) a us) (hf : ∀ a, Tracks K (f a) xs) :
    Tracks K (p >>= f) (t :: xs) := by
  have hp : Tracks (fun _ => False) p [t] := .single ht.forward h
  refine hp.bind (fun u _ us => ?_) hf fun _ _ => False.elim
  obtain ⟨a, hread⟩ := h (u :: us)
  exact stopsBefore_single ht hL hread

theorem token_bind {f : Unit → Parser β} (h : Tracks K (f ()) xs) :
    Tracks K (token k >>= f) (⟨k, s⟩ :: xs) :=
  .single_bind .token (fun _ => length_of_mem_only) (fun _ => ⟨(), reads_token.mpr ⟨s, rfl⟩⟩)
    fun _ => h

theorem ident_bind {x : String} {f : Ident → Parser β} (h : ∀ a, Tracks K (f a) xs) :
    Tracks K (ident >>= f) (⟨.name x, s⟩ :: xs) := by
  refine .single_bind tells_ident ?_ (fun us => ⟨_, reads_ident_cons⟩) h
  rintro _ ⟨x, s, rfl⟩
  rfl

/-- A sign and something else after the first part. -/
theorem bind_sign {m : Sign} {f : α → Unit → Parser β} (hp : Tracks H p xs)
    (hstops : ∀ us, StopsBefore p xs (⟨.sign m, s⟩ :: us)) (hH : ∀ us, H us → FailsHere (sign m) us)
    (hf : ∀ a, Tracks K (f a ()) zs) :
    Tracks K (do let a ← p; sign m >>= f a) (xs ++ ⟨.sign m, s⟩ :: zs) := by
  refine hp.bind ?_ (fun a => .token_bind (hf a)) fun a us hus => .of_failsHere (hH us hus).bind
  rintro _ ⟨⟩ us
  exact hstops us

theorem optional (h : Tracks H p xs) (hhead : ∀ t ∈ xs.head?, ∀ us, K (t :: us))
    (hHK : ∀ us, H us → K us) : Tracks K (optional p) xs := by
  refine ⟨h.forward.optional, fun ys us hne hys => ?_⟩
  refine (h.blames ys us hne hys).optional h.forward ?_ hHK
  cases ys with
  | nil => exact absurd rfl hne
  | cons y ys =>
      obtain ⟨_, rfl⟩ := hys
      exact hhead y rfl _

theorem between {o c : Sign} {s₁ s₂ : Span} (h : Tracks H p xs)
    (hstops : ∀ us, StopsBefore p xs (⟨.sign c, s₂⟩ :: us))
    (hH : ∀ us, H us → FailsHere (sign c) us) :
    Tracks K (between o c p) (⟨.sign o, s₁⟩ :: (xs ++ [⟨.sign c, s₂⟩])) :=
  .token_bind (h.bind_sign hstops hH fun _ => .nil .pure)

theorem between_bind {o c : Sign} {s₁ s₂ : Span} (h : Tracks H p xs)
    (hstops : ∀ us, StopsBefore p xs (⟨.sign c, s₂⟩ :: us))
    (hH : ∀ us, H us → FailsHere (sign c) us) (hf : ∀ a, Tracks K (f a) zs) :
    Tracks K (Parser.between o c p >>= f) (⟨.sign o, s₁⟩ :: (xs ++ ⟨.sign c, s₂⟩ :: zs)) := by
  have hbetween : Tracks (fun _ => False) (Parser.between o c p)
      (⟨.sign o, s₁⟩ :: (xs ++ [⟨.sign c, s₂⟩])) := h.between hstops hH
  have hbind := hbetween.bind (fun _ _ _ => .between (hstops _)) hf fun _ _ => False.elim
  rwa [List.cons_append, List.append_assoc] at hbind

end Tracks

/-! ## Repetitions and lists -/

/-- What may be left where the parser of a nonterminal ends although something was given up, either
by what it had read or by what it tried to go on with. -/
def Nonterminal.Halted : Nonterminal → List Lexeme → Prop
  | .exp, us => ¬NextNot (.assign :: Level.or.follow) us
  | .level l, us => ¬NextNot l.follow us
  | .operation l, us => ∃ k, l.operand? = some k ∧ ¬NextNot k.follow us
  | .atom, us => ¬NextNot Level.unary.follow us
  | .loc, us => ¬NextNot [.dot] us
  | .stmt, us => ∃ t ∈ us.head?, t.token = .keyword .else_
  | .many n, us => n.Halted us ∨ ∃ t ∈ us.head?, (Nonterminal.many n).first t.token = true
  | .list n, us => n.Halted us ∨ ∃ t ∈ us.head?, (Nonterminal.list n).first t.token = true
  | .next n, us => n.Halted us
  | _, _ => False

/-- A nonterminal that may be repeated: the next one of them ends the one before it, also where
something is given up in this one. -/
structure Repeatable (n : Nonterminal) : Prop where
  not_nullable : n.nullable = false
  tells : Tells n.parser (Sentences n)
  ends_nil : n.Ends []
  ends_again : ∀ t us, n.first t.token = true → n.Ends (t :: us)
  halts : ∀ us, n.Halted us → FailsHere n.parser us

section Groups

variable {n : Nonterminal} {v : n.Tree} {rest : List n.Tree}

/-- A repetition that is not empty begins like an item. -/
theorem Derives.first_of_many (hs : Derives (.many n) xs rest) (hu : u ∈ xs.head?) :
    n.first u.token = true := by
  rcases hs.begins with ⟨-, rfl⟩ | ⟨t, ts, rfl, ht⟩
  · cases hu
  · cases hu
    exact ht

theorem Derives.many_append {rest' : List n.Tree} (hs : Derives (.many n) xs rest)
    (hs' : Derives (.many n) ys rest') : Derives (.many n) (xs ++ ys) (rest ++ rest') := by
  induction rest generalizing xs with
  | nil =>
      cases hs
      exact hs'
  | cons v rest ih =>
      cases hs with
      | manyCons hx hs =>
          rw [List.append_assoc]
          exact .manyCons hx (ih hs)

theorem Repeatable.ends_many (h : Repeatable n) (hu : n.first u.token = false)
    (hends : ∀ us, n.Ends (u :: us)) : (Nonterminal.many n).Ends (u :: us) := by
  refine ⟨h.not_nullable, hends us, fails_of_first h.not_nullable ?_, fun xs v ws hxs => ?_⟩
  · rintro _ ⟨⟩
    exact hu
  · obtain ⟨t, ts, rfl, ht⟩ := hxs.begins.exists_first h.not_nullable
    exact h.ends_again t (ts ++ ws) ht

theorem Repeatable.ends_many_nil (h : Repeatable n) : (Nonterminal.many n).Ends [] := by
  refine ⟨h.not_nullable, h.ends_nil, fails_of_first h.not_nullable nofun, fun xs v ws hxs => ?_⟩
  obtain ⟨t, ts, rfl, ht⟩ := hxs.begins.exists_first h.not_nullable
  exact h.ends_again t (ts ++ ws) ht

/-- A repetition stops before a lexeme that neither begins nor continues an item. -/
theorem Repeatable.stopsBefore (h : Repeatable n) (hs : Derives (.many n) xs rest)
    (hu : n.first u.token = false) (hends : ∀ us, n.Ends (u :: us)) :
    StopsBefore (many n.parser) xs (u :: us) :=
  hs.stopsBefore (n := .many n) (tells_many h.tells) h.ends_many_nil fun _ =>
    h.ends_many hu hends

theorem Repeatable.tracks_nil (h : Repeatable n) :
    Tracks (Nonterminal.many n).Halted (many n.parser) [] :=
  .nil h.tells.forward.many

theorem Repeatable.tracks_cons (h : Repeatable n) (hx : Derives n xs v)
    (hs : Derives (.many n) zs rest) (ih : Tracks n.Halted n.parser xs)
    (ihs : Tracks (Nonterminal.many n).Halted (many n.parser) zs) :
    Tracks (Nonterminal.many n).Halted (many n.parser) (xs ++ zs) := by
  obtain ⟨x, xs, rfl, hfirst⟩ := hx.begins.exists_first h.not_nullable
  refine ⟨ih.forward.many, fun ys us hne hys => ?_⟩
  rcases prefix_append_cases hys with hys | ⟨ws, hws, rfl, hpre⟩
  · refine (ih.blames ys us hne hys).many ih.forward ?_ h.halts fun us => Or.inl
    cases ys with
    | nil => exact absurd rfl hne
    | cons y ys =>
        obtain ⟨rfl, -⟩ := List.cons_prefix_cons.mp hys
        exact Or.inr ⟨y, rfl, hfirst⟩
  · cases ws with
    | nil => exact absurd rfl hws
    | cons w ws =>
        have hw : n.first w.token = true := by
          obtain ⟨_, rfl⟩ := hpre
          exact hs.first_of_many rfl
        obtain ⟨a, missed, hread, hleft⟩ : StopsBefore n.parser (x :: xs) (w :: (ws ++ us)) :=
          hx.stopsBefore h.tells h.ends_nil fun _ => h.ends_again _ _ hw
        rw [List.append_assoc, List.cons_append]
        exact .many_after hread nofun hleft ih.forward (ihs.blames (w :: ws) us hws hpre)

theorem Repeatable.tracks (h : Repeatable n)
    (hitem : ∀ xs v, Derives n xs v → Tracks n.Halted n.parser xs)
    (hs : Derives (.many n) xs rest) :
    Tracks (Nonterminal.many n).Halted (many n.parser) xs := by
  induction rest generalizing xs with
  | nil =>
      cases hs
      exact h.tracks_nil
  | cons v rest ih =>
      cases hs with
      | manyCons hx hs => exact h.tracks_cons hx hs (hitem _ v hx) (ih hs)

end Groups

/-- A nonterminal that may stand in a list with commas. -/
structure Listed (n : Nonterminal) : Prop where
  not_nullable : n.nullable = false
  tells : Tells n.parser (Sentences n)
  next : Repeatable (.next n)

section Lists

variable {n : Nonterminal} {v : n.Tree} {rest : List n.Tree}

theorem Listed.tracks_nil (h : Listed n) :
    Tracks (Nonterminal.list n).Halted (sepBy n.parser (sign .comma)) [] :=
  .nil (tells_sepBy h.tells).forward

theorem Listed.ends_comma (h : Listed n) (s : Span) (us : List Lexeme) :
    n.Ends (⟨.sign .comma, s⟩ :: us) :=
  h.next.ends_again _ us (by simp [Nonterminal.first])

theorem Listed.tracks_cons (h : Listed n) (hx : Derives n xs v)
    (hs : Derives (.many (.next n)) zs rest) (ih : Tracks n.Halted n.parser xs)
    (ihs : Tracks (Nonterminal.many (.next n)).Halted (many (Nonterminal.next n).parser) zs) :
    Tracks (Nonterminal.list n).Halted (sepBy n.parser (sign .comma)) (xs ++ zs) := by
  have hseq : Tracks (Nonterminal.list n).Halted (do
      let a ← n.parser
      let as ← many (Nonterminal.next n).parser
      return a :: as) (xs ++ zs) := by
    refine ih.bind (fun u hu us => ?_) (fun a => ihs.map fun us hus => ?_) fun a us hus => ?_
    · exact hx.stopsBefore h.tells h.next.ends_nil fun ws =>
        h.next.ends_again _ ws (hs.first_of_many hu)
    · rcases hus with hus | ⟨t, ht, hfirst⟩
      · exact Or.inl hus
      · exact Or.inr ⟨t, ht, Bool.or_eq_true_iff.mpr (Or.inr hfirst)⟩
    · have hmany : Refuses n.Halted (many (Nonterminal.next n).parser) us :=
        .many (h.next.halts us hus) hus
      exact hmany.bind fun _ _ hus => .pure (Or.inl hus)
  refine Tracks.map (hseq.optional (fun t ht us => Or.inr ⟨t, rfl, ?_⟩) fun _ => id) fun _ => id
  obtain ⟨x, xs, rfl, hfirst⟩ := hx.begins.exists_first h.not_nullable
  cases ht
  exact Bool.or_eq_true_iff.mpr (Or.inl hfirst)

/-- A list stops before a lexeme that is no comma and neither begins nor continues an item. -/
theorem Listed.stopsBefore {vs : List n.Tree} (h : Listed n) (hx : Derives (.list n) xs vs)
    (hu : (Nonterminal.list n).first u.token = false) (hends : ∀ us, n.Ends (u :: us)) :
    StopsBefore (sepBy n.parser (sign .comma)) xs (u :: us) := by
  obtain ⟨hfirst, hcomma⟩ := Bool.or_eq_false_iff.mp hu
  refine hx.stopsBefore (n := .list n) (tells_sepBy h.tells) ?_ fun us => ?_
  · exact ⟨h.next.ends_nil, fails_of_first h.not_nullable nofun, nextNot_nil, h.ends_comma⟩
  · refine ⟨hends us, fails_of_first h.not_nullable ?_, nextNot_cons.mpr ?_, h.ends_comma⟩
    · rintro _ ⟨⟩
      exact hfirst
    · rintro m hm
      rw [List.mem_singleton.mp hm]
      exact of_decide_eq_false hcomma

end Lists

theorem tracks_next {n : Nonterminal} (h : Tracks n.Halted n.parser xs) :
    Tracks (Nonterminal.next n).Halted (Nonterminal.next n).parser (⟨.sign .comma, s⟩ :: xs) :=
  .token_bind (f := fun _ => n.parser) h

/-- A nonterminal whose groups repeat what may be repeated. -/
def Nonterminal.Regular : Nonterminal → Prop
  | .many n => Repeatable n ∧ n.Regular
  | .list n => Listed n ∧ n.Regular
  | .next n => n.Regular
  | _ => True

end NameCheck.Grammar
