import NameCheck.Proofs.Grammar.GivenUp

/-!
# Choices

An alternative that is not meant yields to the others if it fails before anything is given up.
The alternatives of a choice are told from each other by marks: by the token that comes after the
ones with which several of them may lead, and by whether there are any of these.  The alternative
with the mark of what is read puts the blame for all of them.
-/

namespace NameCheck.Grammar

open NameCheck.Parser

variable {α : Type} {ts us xs ys zs : List Lexeme} {t : Lexeme} {k : Token}
  {H : List Lexeme → Prop} {p q : Parser α} {L : Language Lexeme}

/-! ## Alternatives that yield -/

namespace Yields

variable {n : Nat} {lead : Token → Bool}

theorem of_failsHere (h : FailsHere p ts) : Yields p ts n := by
  obtain ⟨miss, hp, hleft⟩ := h
  refine Or.inr ⟨miss, hp, fun before after hts _ => ?_⟩
  rw [hleft, hts, List.length_append]
  exact Nat.le_add_left _ _

theorem orElse (hp : Yields p ts n) (hq : Yields q ts n) : Yields (p <|> q) ts n := by
  rcases done_or_failed p ts with ⟨a, us, missed, h⟩ | ⟨miss, h⟩
  · rcases hp with hn | ⟨miss, hfail, -⟩
    · rw [h] at hn
      exact Or.inl (by rwa [orElse_of_done h])
    · rw [h] at hfail
      cases hfail
  rcases done_or_failed q ts with ⟨a, us, missed, h'⟩ | ⟨miss', h'⟩
  · rcases hq with hn | ⟨miss', hfail, -⟩
    · rw [h'] at hn
      exact Or.inl (by rwa [orElse_of_failed_of_done h h'])
    · rw [h'] at hfail
      cases hfail
  · rw [Yields, h] at hp
    rw [Yields, h'] at hq
    rw [Yields, orElse_of_failed_of_failed h h', Outcome.left_failed, Miss.left_furthest]
    rcases hp with hn | ⟨_, ⟨⟩, hpast⟩
    · exact Or.inl ((Nat.min_le_left _ _).trans hn)
    rcases hq with hn | ⟨_, ⟨⟩, hpast'⟩
    · exact Or.inl ((Nat.min_le_right _ _).trans hn)
    · refine Or.inr ⟨_, rfl, fun before after hts hg => ?_⟩
      rw [Miss.left_furthest]
      exact Nat.le_min.mpr ⟨hpast before after hts hg, hpast' before after hts hg⟩

/-- An alternative that parts from `xs` while both have only leading lexemes. -/
theorem of_tells (ht : Tells p L) (hlead : ∀ t, lead t.token = true → Plain t)
    (hL : ∀ ws ∈ L, ∃ t ∈ ws, lead t.token = false)
    (hxs : ∀ bs ∈ beginnings L, bs <+: xs → ∀ t ∈ bs, lead t.token = true) (hys : ys <+: xs) :
    Yields p (ys ++ us) us.length := by
  have hshort {bs : List Lexeme} {vs : List Lexeme} (hbs : ys ++ us = bs ++ vs)
      (hlt : us.length < vs.length) : bs <+: xs := by
    refine (List.prefix_of_prefix_length_le (hbs ▸ List.prefix_append bs vs)
      (List.prefix_append ys us) ?_).trans hys
    have hlength := congrArg List.length hbs
    simp only [List.length_append] at hlength
    omega
  rcases done_or_failed p (ys ++ us) with ⟨a, vs, missed, hp⟩ | ⟨miss, hp⟩
  · refine Or.inl ?_
    rw [hp]
    refine Outcome.left_done_le.trans (Nat.le_of_not_lt fun hlt => ?_)
    obtain ⟨ws, hws, hmem⟩ := ht.sound _ _ _ _ hp
    obtain ⟨t, htw, hfalse⟩ := hL ws hmem
    have htrue := hxs ws ⟨[], (List.append_nil ws).symm ▸ hmem⟩ (hshort hws hlt) t htw
    rw [hfalse] at htrue
    cases htrue
  · rcases Nat.lt_or_ge us.length miss.left with hlt | hge
    · have hmiss := (ht.failed hp).truthful
      have hcut := List.take_append_drop ((ys ++ us).length - miss.left) (ys ++ us)
      have hdrop : us.length < ((ys ++ us).drop ((ys ++ us).length - miss.left)).length := by
        rw [List.length_drop, Nat.sub_sub_self hmiss.left_le]
        exact hlt
      have hplain : ∀ t ∈ miss.before (ys ++ us), Plain t := fun t ht' =>
        hlead t (hxs _ hmiss.begun (hshort hcut.symm hdrop) t ht')
      refine Or.inr ⟨miss, hp, fun before after hts hg => ?_⟩
      rw [hts] at hplain
      exact hg.le_left (hts ▸ hmiss.left_le) hplain
    · refine Or.inl ?_
      rw [hp]
      exact hge

end Yields

/-! ## Alternatives with marks -/

section Marks

variable {lead : Token → Bool} {m m' : Bool × Token}

/-- Lexemes that come to a given token after leading ones; the mark tells whether there are any,
and the token. -/
def Marked (lead : Token → Bool) (m : Bool × Token) (xs : List Lexeme) : Prop :=
  ∃ as s bs, xs = as ++ ⟨m.2, s⟩ :: bs ∧ (∀ t ∈ as, lead t.token = true) ∧ lead m.2 = false ∧
    (m.1 = true ↔ as ≠ [])

theorem lead_of_parting {as bs as' bs' : List Lexeme} {t' : Lexeme}
    (has : ∀ a ∈ as, lead a.token = true) (has' : ∀ a ∈ as', lead a.token = true)
    (ht : lead t.token = false) (ht' : lead t'.token = false) (hne : t.token ≠ t'.token)
    (h : zs <+: as ++ t :: bs) (h' : zs <+: as' ++ t' :: bs') : ∀ z ∈ zs, lead z.token = true := by
  induction as generalizing as' zs with
  | nil =>
      rcases List.prefix_cons_iff.mp h with rfl | ⟨zs, rfl, -⟩
      · nofun
      cases as' with
      | nil =>
          obtain ⟨rfl, -⟩ := List.cons_prefix_cons.mp h'
          exact absurd rfl hne
      | cons a' as' =>
          obtain ⟨rfl, -⟩ := List.cons_prefix_cons.mp h'
          rw [has' t List.mem_cons_self] at ht
          cases ht
  | cons a as ih =>
      rcases List.prefix_cons_iff.mp h with rfl | ⟨zs, rfl, hzs⟩
      · nofun
      have ha := has a List.mem_cons_self
      cases as' with
      | nil =>
          obtain ⟨rfl, -⟩ := List.cons_prefix_cons.mp h'
          rw [ha] at ht'
          cases ht'
      | cons a' as' =>
          obtain ⟨rfl, hzs'⟩ := List.cons_prefix_cons.mp h'
          have hrest := ih (fun b hb => has b (List.mem_cons_of_mem _ hb))
            (fun b hb => has' b (List.mem_cons_of_mem _ hb)) hzs hzs'
          exact List.forall_mem_cons.mpr ⟨ha, hrest⟩

theorem Marked.lead_head (h : Marked lead m (t :: ts)) : lead t.token = m.1 := by
  obtain ⟨as, s, bs, hts, has, hk, hm⟩ := h
  cases as with
  | nil =>
      obtain ⟨rfl, -⟩ := List.cons.inj hts
      have hfalse : m.1 = false := by simpa using hm
      rw [hk, hfalse]
  | cons a as =>
      obtain ⟨rfl, -⟩ := List.cons.inj hts
      rw [has t List.mem_cons_self, hm.mpr nofun]

theorem Marked.exists_not_lead (h : Marked lead m xs) : ∃ t ∈ xs, lead t.token = false := by
  obtain ⟨as, s, bs, rfl, -, hk, -⟩ := h
  exact ⟨_, List.mem_append_right _ List.mem_cons_self, hk⟩

theorem Marked.append (h : Marked lead m xs) : Marked lead m (xs ++ zs) := by
  obtain ⟨as, s, bs, rfl, has, hk, hm⟩ := h
  exact ⟨as, s, bs ++ zs, by simp, has, hk, hm⟩

/-- Where lexemes with two marks agree they only lead. -/
theorem Marked.lead_of_common (h : Marked lead m xs) (h' : Marked lead m' ys) (hne : m ≠ m')
    (hzs : zs <+: xs) (hzs' : zs <+: ys) : ∀ z ∈ zs, lead z.token = true := by
  by_cases hfst : m.1 = m'.1
  · obtain ⟨as, s, bs, rfl, has, hk, -⟩ := h
    obtain ⟨as', s', bs', rfl, has', hk', -⟩ := h'
    have hsnd : m.2 ≠ m'.2 := fun hsnd => hne (Prod.ext hfst hsnd)
    exact lead_of_parting has has' hk hk' hsnd hzs hzs'
  · cases zs with
    | nil => nofun
    | cons z zs =>
        obtain ⟨_, rfl⟩ := hzs
        obtain ⟨_, rfl⟩ := hzs'
        exact absurd (h.lead_head.symm.trans h'.lead_head) hfst

/-- Along lexemes with another mark, an alternative yields. -/
def YieldsByMark (lead : Token → Bool) (entry : (Bool × Token) × Parser α) : Prop :=
  ∀ m xs ys us, Marked lead m xs → m ≠ entry.1 → ys ≠ [] → ys <+: xs →
    Yields entry.2 (ys ++ us) us.length

/-- An alternative that reads lexemes with its mark. -/
theorem yieldsByMark_of_tells (ht : Tells p L) (hlead : ∀ t, lead t.token = true → Plain t)
    (hL : ∀ ws ∈ L, Marked lead m ws) : YieldsByMark lead (m, p) := by
  intro m' xs ys us hxs hne _ hys
  refine .of_tells ht hlead (fun ws hws => (hL ws hws).exists_not_lead) ?_ hys
  rintro bs ⟨cs, hbs⟩ hpre
  exact (hL _ hbs).lead_of_common hxs (Ne.symm hne) (List.prefix_append bs cs) hpre

/-- An alternative that begins with a word of its own. -/
theorem yieldsByMark_word {f : Unit → Parser α} (hk : lead k = false) :
    YieldsByMark lead ((false, k), token k >>= f) := by
  intro m xs ys us hxs hne hnil hys
  refine .of_failsHere (FailsHere.bind (failsHere_token fun t ht => ?_))
  rintro rfl
  cases ys with
  | nil => exact absurd rfl hnil
  | cons y ys =>
      cases ht
      obtain ⟨zs, rfl⟩ := hys
      have hfst := hxs.lead_head
      rw [hk] at hfst
      obtain ⟨as, s, bs, heq, -, -, hm⟩ := hxs
      have has : as = [] := by simpa [← hfst] using hm
      rw [has] at heq
      obtain ⟨rfl, -⟩ := List.cons.inj heq
      exact hne (Prod.ext hfst.symm rfl)

/-- A choice between parsers, the first one given apart. -/
def firstOf (p : Parser α) : List (Parser α) → Parser α
  | [] => p
  | q :: qs => p <|> firstOf q qs

variable {e : (Bool × Token) × Parser α} {es : List ((Bool × Token) × Parser α)}

/-- Alternatives with other marks yield together. -/
theorem yields_firstOf (hy : ∀ e' ∈ e :: es, YieldsByMark lead e')
    (hm : m ∉ (e :: es).map Prod.fst) (hxs : Marked lead m xs) (hnil : ys ≠ []) (hys : ys <+: xs) :
    Yields (firstOf e.2 (es.map Prod.snd)) (ys ++ us) us.length := by
  have hfirst := hy e List.mem_cons_self m xs ys us hxs (List.ne_of_not_mem_cons hm) hnil hys
  induction es generalizing e with
  | nil => exact hfirst
  | cons e' es ih =>
      have hrest : m ∉ (e' :: es).map Prod.fst := List.not_mem_of_not_mem_cons hm
      have hy' : ∀ e'' ∈ e' :: es, YieldsByMark lead e'' :=
        fun e'' h => hy e'' (List.mem_cons_of_mem _ h)
      exact .orElse hfirst (ih hy' hrest
        (hy' e' List.mem_cons_self m xs ys us hxs (List.ne_of_not_mem_cons hrest) hnil hys))

/-- Of alternatives with different marks the one with the right mark is taken. -/
theorem Blames.firstOf (hy : ∀ e' ∈ e :: es, YieldsByMark lead e')
    (hmarks : ((e :: es).map Prod.fst).Nodup) (hmem : (m, p) ∈ e :: es) (hxs : Marked lead m xs)
    (hnil : ys ≠ []) (hys : ys <+: xs) (hp : Blames H p (ys ++ us) us.length) :
    Blames H (firstOf e.2 (es.map Prod.snd)) (ys ++ us) us.length := by
  induction es generalizing e with
  | nil =>
      obtain rfl := List.mem_singleton.mp hmem
      exact hp
  | cons e' es ih =>
      obtain ⟨hfirst, hrest⟩ := List.nodup_cons.mp hmarks
      have hy' : ∀ e'' ∈ e' :: es, YieldsByMark lead e'' :=
        fun e'' h => hy e'' (List.mem_cons_of_mem _ h)
      rcases List.mem_cons.mp hmem with rfl | hmem
      · exact hp.orElse_left (yields_firstOf hy' hfirst hxs hnil hys)
      · have hne : m ≠ e.1 := fun heq => hfirst (heq ▸ List.mem_map_of_mem (f := Prod.fst) hmem)
        exact .orElse_right (hy e List.mem_cons_self m xs ys us hxs hne hnil hys)
          (ih hy' hrest hmem)

end Marks

end NameCheck.Grammar
