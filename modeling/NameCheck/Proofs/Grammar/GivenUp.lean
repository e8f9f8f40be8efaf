import NameCheck.Proofs.Grammar.Expectations
import NameCheck.Proofs.Grammar.Reach

/-!
# What is given up

A choice forgets what its earlier alternatives missed.  The parsers of the language do so at two
places only: a call that cannot be finished is read as the name before its bracket, and an
assignment that cannot be finished as the location before its equals sign.  Apart from these, a
parser that is given a beginning of what is derived from its nonterminal comes to the end of this
beginning, whatever stands after it.
-/

namespace NameCheck.Grammar

open NameCheck.Parser

/-! ## Places where something is given up -/

/-- `GivenUp before after`: before `after` stands the name of a call that is not finished in what
comes next, or a location that nothing is assigned to there. -/
inductive GivenUp : List Lexeme → List Lexeme → Prop where
  | call {before rest : List Lexeme} {x : String} {s₁ s₂ : Span}
      (h : ∀ xs e, xs <+: ⟨.name x, s₁⟩ :: ⟨.sign .lparen, s₂⟩ :: rest → ¬Derives .call xs e) :
      GivenUp (before ++ [⟨.name x, s₁⟩]) (⟨.sign .lparen, s₂⟩ :: rest)
  | assign {before xs rest : List Lexeme} {lhs : Expr} {s : Span} (hl : Derives .loc xs lhs)
      (h : ∀ ys e, ys <+: rest → ¬Derives .exp ys e) :
      GivenUp (before ++ xs) (⟨.sign .assign, s⟩ :: rest)

variable {α β : Type} {ts us vs xs ys zs before after : List Lexeme} {t : Lexeme}
  {H K : List Lexeme → Prop} {p q : Parser α} {f : α → Parser β} {a : α} {n : Nat}
  {missed : Option Miss} {miss : Miss}

theorem GivenUp.prepend (h : GivenUp before after) : GivenUp (xs ++ before) after := by
  cases h with
  | call h =>
      rw [← List.append_assoc]
      exact .call h
  | assign hl h =>
      rw [← List.append_assoc]
      exact .assign hl h

/-- A lexeme at which nothing is given up. -/
def Plain (t : Lexeme) : Prop :=
  t.token ≠ .sign .lparen ∧ t.token ≠ .sign .assign

theorem GivenUp.exists_head (h : GivenUp before after) :
    ∃ t rest, after = t :: rest ∧ ¬Plain t := by
  cases h with
  | call => exact ⟨_, _, rfl, fun h => h.1 rfl⟩
  | assign => exact ⟨_, _, rfl, fun h => h.2 rfl⟩

/-- What is given up stands after a beginning in which nothing can be. -/
theorem GivenUp.length_le (h : GivenUp before after) (hxs : xs <+: before ++ after)
    (hplain : ∀ t ∈ xs, Plain t) : after.length + xs.length ≤ (before ++ after).length := by
  obtain ⟨t, rest, rfl, ht⟩ := h.exists_head
  rcases Nat.lt_or_ge before.length xs.length with hlt | hge
  · obtain ⟨ys, hys⟩ := hxs
    have hmem : t ∈ xs := by
      have hget : (xs ++ ys)[before.length]? = some t := by rw [hys]; simp
      rw [List.getElem?_append_left hlt] at hget
      exact List.mem_of_getElem? hget
    exact absurd (hplain t hmem) ht
  · rw [List.length_append]
    omega

/-- A miss after nothing but plain lexemes is not after anything that is given up. -/
theorem GivenUp.le_left (h : GivenUp before after) (hle : miss.left ≤ (before ++ after).length)
    (hplain : ∀ t ∈ miss.before (before ++ after), Plain t) : after.length ≤ miss.left := by
  have hlength := h.length_le (List.take_prefix _ _) hplain
  rw [List.length_take] at hlength
  omega

/-! ## The place of an outcome -/

/-- Of some lexemes all but the last `n` are known to be right.  An outcome blames one of these
`n`, or it comes from something that was given up, and if it leaves lexemes then these have a
given property. -/
inductive Blames (H : List Lexeme → Prop) (p : Parser α) (ts : List Lexeme) (n : Nat) : Prop where
  | reaches (h : (p (.of ts)).left ≤ n)
  | givesUp {before after : List Lexeme} (hts : ts = before ++ after) (h : GivenUp before after)
      (hleft : (p (.of ts)).left = after.length)
      (hstops : ∀ a us missed, p (.of ts) = .done a (.of us) missed → H us)

/-- A parser that comes to the last `n` lexemes too, or fails before anything is given up. -/
def Yields (p : Parser α) (ts : List Lexeme) (n : Nat) : Prop :=
  (p (.of ts)).left ≤ n ∨ ∃ miss, p (.of ts) = .failed miss ∧
    ∀ before after, ts = before ++ after → GivenUp before after → after.length ≤ miss.left

namespace Blames

/-- An outcome that comes as far puts the blame where the other one does. -/
theorem of_left_eq {q : Parser β} (h : Blames H p ts n)
    (hleft : (q (.of ts)).left = (p (.of ts)).left)
    (hstops : ∀ b us missed, q (.of ts) = .done b (.of us) missed →
      (∀ a us missed, p (.of ts) = .done a (.of us) missed → H us) → K us) : Blames K q ts n := by
  cases h with
  | reaches hn => exact .reaches (hleft.trans_le hn)
  | givesUp hts hg hat hp =>
      exact .givesUp hts hg (hleft.trans hat) fun b us missed hd => hstops b us missed hd hp

theorem mono (h : Blames H p ts n) (hHK : ∀ us, H us → K us) : Blames K p ts n :=
  h.of_left_eq rfl fun a us missed hd hp => hHK us (hp a us missed hd)

theorem congr (h : Blames H p ts n) (hpq : q (.of ts) = p (.of ts)) : Blames H q ts n :=
  h.of_left_eq (congrArg Outcome.left hpq) fun a us missed hd hp => hp a us missed (hpq ▸ hd)

/-- What comes next refuses the lexemes at which the first part was stopped. -/
theorem bind (hp : Blames H p ts n) (hfwd : ∀ a, Forward (f a))
    (hf : ∀ a us, H us → Refuses K (f a) us) : Blames K (p >>= f) ts n := by
  rcases done_or_failed p ts with ⟨a, us, missed, h⟩ | ⟨miss, h⟩
  · have hleft := left_bind h (hfwd a us)
    cases hp with
    | reaches hn => exact .reaches (hleft.trans_le ((Nat.min_le_left _ _).trans hn))
    | givesUp hts hg hat hstops =>
        have hnext := hf a us (hstops a us missed h)
        have hle : (p (.of ts)).left ≤ us.length := by
          rw [h]
          exact Outcome.left_done_le
        refine .givesUp hts hg ?_ fun b vs missed' hd => ?_
        · rw [hleft, hnext.left_eq, Nat.min_eq_left hle, hat]
        · obtain ⟨a', us', h', _, hb⟩ := reads_bind.mp ⟨missed', hd⟩
          obtain ⟨rfl, rfl⟩ := h'.unique ⟨missed, h⟩
          exact hnext.stops b vs _ hb
  · have hout : (p >>= f) (.of ts) = .failed miss := bind_of_failed h
    refine hp.of_left_eq ?_ fun b vs missed' hd _ => ?_
    · rw [hout, h, Outcome.left_failed, Outcome.left_failed]
    · rw [hout] at hd
      cases hd

/-- The second part decides, when nothing that it gives up stands before a miss of the first. -/
theorem after_done (hp : p (.of (xs ++ us)) = .done a (.of us) missed)
    (hpast : ∀ before after, us = before ++ after → GivenUp before after →
      after.length ≤ (p (.of (xs ++ us))).left)
    (hfwd : Forward (f a)) (hf : Blames K (f a) us n) : Blames K (p >>= f) (xs ++ us) n := by
  have hleft := left_bind hp (hfwd us)
  -- the furthest place is that of the second part, as no miss of the first lies beyond it
  cases hf with
  | reaches h => exact .reaches (hleft.trans_le ((Nat.min_le_right _ _).trans h))
  | @givesUp before after hus h hat hstops =>
      have hts : xs ++ us = (xs ++ before) ++ after := by rw [hus, List.append_assoc]
      refine .givesUp hts h.prepend ?_ fun b vs missed' hd => ?_
      · rw [hleft, hat]
        exact Nat.min_eq_right (hpast before after hus h)
      · obtain ⟨a', us', h', _, hb⟩ := reads_bind.mp ⟨missed', hd⟩
        obtain ⟨rfl, rfl⟩ := h'.unique ⟨missed, hp⟩
        exact hstops b vs _ hb

/-- Where both of two parsers fail, so does the choice between them, at the furthest place. -/
theorem of_failed {r : Parser α} {miss' miss'' : Miss} (hp : Blames H p ts n)
    (h : p (.of ts) = .failed miss) (hq : Yields q ts n) (h' : q (.of ts) = .failed miss')
    (hr : r (.of ts) = .failed miss'') (hleft : miss''.left = min miss.left miss'.left) :
    Blames H r ts n := by
  rw [Yields, h'] at hq
  have hrleft : (r (.of ts)).left = min miss.left miss'.left := by
    rw [hr]
    exact hleft
  cases hp with
  | reaches hn =>
      rw [h] at hn
      exact .reaches (hrleft.trans_le ((Nat.min_le_left _ _).trans hn))
  | @givesUp before after hts hg hat hstops =>
      rcases hq with hn | ⟨_, ⟨⟩, hpast⟩
      · exact .reaches (hrleft.trans_le ((Nat.min_le_right _ _).trans hn))
      · have hle := hpast before after hts hg
        rw [h, Outcome.left_failed] at hat
        refine .givesUp hts hg ?_ fun b vs missed hd => ?_
        · rw [hrleft, hat]
          exact Nat.min_eq_left hle
        · rw [hr] at hd
          cases hd

theorem orElse_left (hp : Blames H p ts n) (hq : Yields q ts n) : Blames H (p <|> q) ts n := by
  rcases done_or_failed p ts with ⟨a, us, missed, h⟩ | ⟨miss, h⟩
  · exact hp.congr ((orElse_of_done h).trans h.symm)
  rcases done_or_failed q ts with ⟨a, us, missed, h'⟩ | ⟨miss', h'⟩
  · have hout : (p <|> q) (.of ts) = q (.of ts) := (orElse_of_failed_of_done h h').trans h'.symm
    rcases hq with hn | ⟨miss', hfail, -⟩
    · exact .reaches (hout ▸ hn)
    · rw [hfail] at h'
      cases h'
  · have hout := orElse_of_failed_of_failed h h'
    exact hp.of_failed h hq h' hout (Miss.left_furthest miss miss')

theorem orElse_right (hp : Yields p ts n) (hq : Blames H q ts n) : Blames H (p <|> q) ts n := by
  rcases done_or_failed p ts with ⟨a, us, missed, h⟩ | ⟨miss, h⟩
  · have hout : (p <|> q) (.of ts) = p (.of ts) := (orElse_of_done h).trans h.symm
    rcases hp with hn | ⟨miss, hfail, -⟩
    · exact .reaches (hout ▸ hn)
    · rw [hfail] at h
      cases h
  rcases done_or_failed q ts with ⟨a, us, missed, h'⟩ | ⟨miss', h'⟩
  · exact hq.congr ((orElse_of_failed_of_done h h').trans h'.symm)
  · have hout := orElse_of_failed_of_failed h h'
    have hleft : (miss.furthest miss').left = min miss'.left miss.left := by
      rw [Miss.left_furthest, Nat.min_comm]
    exact hq.of_failed h' hp h hout hleft

theorem optional (h : Blames H p ts n) (hfwd : Forward p) (hts : K ts) (hHK : ∀ us, H us → K us) :
    Blames K (optional p) ts n := by
  rcases done_or_failed p ts with ⟨a, us, missed, hp⟩ | ⟨miss, hp⟩
  · have hout := optional_of_done hp
    refine h.of_left_eq ?_ fun a? vs missed' hd hstops => ?_
    · rw [hout, hp]
      rfl
    · obtain ⟨-, rfl⟩ := Reads.unique ⟨missed', hd⟩ ⟨missed, hout⟩
      exact hHK vs (hstops a vs missed hp)
  · have hout := optional_of_failed hp
    refine h.of_left_eq ?_ fun a? vs missed' hd _ => ?_
    · rw [left_optional_of_failed hp (hfwd.failed hp), hp, Outcome.left_failed]
    · obtain ⟨-, rfl⟩ := Reads.unique ⟨missed', hd⟩ ⟨some miss, hout⟩
      exact hts

/-- A repetition stops at its first item, if that one is given up, or right after it. -/
theorem many (h : Blames H p ts n) (hfwd : Forward p) (hts : K ts)
    (hH : ∀ us, H us → FailsHere p us) (hHK : ∀ us, H us → K us) : Blames K (many p) ts n := by
  rcases done_or_failed p ts with ⟨a, us, missed, hp⟩ | ⟨miss, hp⟩
  · rcases Nat.lt_or_ge us.length ts.length with hlt | hge
    · have hleft := left_many hp hlt (hfwd.many us)
      cases h with
      | reaches hn => exact .reaches (hleft.trans_le ((Nat.min_le_left _ _).trans hn))
      | givesUp hts hg hat hstops =>
          have hus := hstops a us missed hp
          have hnext : Refuses K (Parser.many p) us := .many (hH us hus) (hHK us hus)
          have hle : (p (.of ts)).left ≤ us.length := by
            rw [hp]
            exact Outcome.left_done_le
          refine .givesUp hts hg ?_ fun as vs missed' hd => ?_
          · rw [hleft, hnext.left_eq, Nat.min_eq_left hle, hat]
          · obtain ⟨bs, ws, missed₂, hrest⟩ := exists_many p us
            obtain ⟨-, rfl⟩ := Reads.unique ⟨missed', hd⟩ ⟨_, many_of_done hp hlt hrest⟩
            exact hnext.stops bs vs missed₂ hrest
    · have hout := many_of_done_of_le hp hge
      refine h.of_left_eq ?_ fun as vs missed' hd hstops => ?_
      · rw [hout, hp]
        rfl
      · obtain ⟨-, rfl⟩ := Reads.unique ⟨missed', hd⟩ ⟨missed, hout⟩
        exact hHK vs (hstops a vs missed hp)
  · have hout := many_of_failed hp
    refine h.of_left_eq ?_ fun as vs missed' hd _ => ?_
    · rw [left_many_of_failed hp (hfwd.failed hp), hp, Outcome.left_failed]
    · obtain ⟨-, rfl⟩ := Reads.unique ⟨missed', hd⟩ ⟨some miss, hout⟩
      exact hts

/-- After the first item of a repetition the others decide. -/
theorem many_after (hp : p (.of (xs ++ us)) = .done a (.of us) missed) (hxs : xs ≠ [])
    (hpast : us.length ≤ (p (.of (xs ++ us))).left) (hfwd : Forward p)
    (h : Blames K (Parser.many p) us n) : Blames K (Parser.many p) (xs ++ us) n := by
  have hlt : us.length < (xs ++ us).length := by
    rw [List.length_append]
    exact Nat.lt_add_of_pos_left (List.length_pos_iff.mpr hxs)
  have hleft := left_many hp hlt (hfwd.many us)
  cases h with
  | reaches hn => exact .reaches (hleft.trans_le ((Nat.min_le_right _ _).trans hn))
  | @givesUp before after hus hg hat hstops =>
      have hle : after.length ≤ (p (.of (xs ++ us))).left := by
        refine Nat.le_trans ?_ hpast
        rw [hus, List.length_append]
        exact Nat.le_add_left _ _
      have hts : xs ++ us = (xs ++ before) ++ after := by rw [hus, List.append_assoc]
      refine .givesUp hts hg.prepend ?_ fun as vs missed' hd => ?_
      · rw [hleft, hat]
        exact Nat.min_eq_right hle
      · obtain ⟨bs, ws, missed₂, hrest⟩ := exists_many p us
        rw [many_of_done hp hlt hrest] at hd
        injection hd with _ hvs _
        rw [← Input.of_injective hvs]
        exact hstops bs ws missed₂ hrest

end Blames

end NameCheck.Grammar
