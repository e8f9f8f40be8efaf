import NameCheck.Proofs.Grammar.Misses

/-!
# How far reading came

An outcome knows of places in the input: of the one where its rest begins, and of the one where it
missed something.  The furthest of them is counted by the lexemes that are left there.  In a
sequence the further part decides; what is forgotten is only the misses of an alternative that
failed before one that succeeds.
-/

namespace NameCheck

variable {α β : Type} {ts us vs : List Lexeme} {missed missed' : Option Miss} {miss miss' : Miss}
  {n k : Nat}

namespace Miss

theorem left_furthest (a b : Miss) : (a.furthest b).left = min a.left b.left := by
  rw [furthest]
  split
  · omega
  split
  · omega
  · have hle : a.left ≤ b.left := by omega
    exact (Nat.min_eq_left hle).symm

/-- The lexemes that are left at a miss or where `n` are left, whichever is further on. -/
def leftOr : Option Miss → Nat → Nat
  | none, n => n
  | some m, n => min m.left n

theorem leftOr_le : leftOr missed n ≤ n := by
  cases missed with
  | none => exact Nat.le_refl n
  | some m => exact Nat.min_le_right _ _

theorem left_furthestOf : (furthestOf missed miss).left = leftOr missed miss.left := by
  cases missed with
  | none => rfl
  | some m => exact left_furthest m miss

theorem leftOr_furthest? :
    leftOr (furthest? missed missed') n = leftOr missed (leftOr missed' n) := by
  cases missed with
  | none => rfl
  | some a =>
      cases missed' with
      | none => rfl
      | some b => rw [furthest?, leftOr, left_furthest, leftOr, leftOr, Nat.min_assoc]

/-- A miss counts for as much at a place as it does at a later one, or this later one does. -/
theorem leftOr_of_le (h : k ≤ n) : leftOr missed k = min (leftOr missed n) k := by
  cases missed with
  | none => exact (Nat.min_eq_right h).symm
  | some m => rw [leftOr, leftOr, Nat.min_assoc, Nat.min_eq_right h]

end Miss

namespace Outcome

/-- How many lexemes are left at the furthest place that an outcome knows of. -/
def left : Outcome α → Nat
  | .done _ rest missed => Miss.leftOr missed rest.left
  | .failed miss => miss.left

@[simp]
theorem left_failed : (failed miss : Outcome α).left = miss.left := rfl

theorem left_done {a : α} : (done a (.of us) missed).left = Miss.leftOr missed us.length := rfl

theorem left_done_le {a : α} : (done a (.of us) missed).left ≤ us.length :=
  Miss.leftOr_le

theorem le_left_done {a : α} (h : n ≤ us.length) (hmissed : ∀ m ∈ missed, n ≤ m.left) :
    n ≤ (done a (.of us) missed).left := by
  cases missed with
  | none => exact h
  | some m => exact Nat.le_min.mpr ⟨hmissed m rfl, h⟩

end Outcome

namespace Parser

variable {p q : Parser α} {f : α → Parser β} {a : α} {as : List α}

/-- A parser that never goes back. -/
def Forward (p : Parser α) : Prop :=
  ∀ ts, (p (.of ts)).left ≤ ts.length

/-! ## Sequences and choices -/

theorem left_bind (h : p (.of ts) = .done a (.of us) missed)
    (hf : (f a (.of us)).left ≤ us.length) :
    ((p >>= f) (.of ts)).left = min (p (.of ts)).left (f a (.of us)).left := by
  have hleft : ((p >>= f) (.of ts)).left = Miss.leftOr missed (f a (.of us)).left := by
    rcases done_or_failed (f a) us with ⟨b, vs, missed', hb⟩ | ⟨miss, hb⟩
    · rw [bind_of_done_of_done h hb, hb]
      exact Miss.leftOr_furthest?
    · rw [bind_of_done_of_failed h hb, hb]
      exact Miss.left_furthestOf
  rw [hleft, h, Outcome.left_done]
  exact Miss.leftOr_of_le hf

theorem left_optional_of_failed (h : p (.of ts) = .failed miss) (hle : miss.left ≤ ts.length) :
    (optional p (.of ts)).left = miss.left := by
  rw [optional_of_failed h]
  exact Nat.min_eq_left hle

/-! ## Repetitions -/

theorem left_many_of_failed (h : p (.of ts) = .failed miss) (hle : miss.left ≤ ts.length) :
    (many p (.of ts)).left = miss.left := by
  rw [many_of_failed h]
  exact Nat.min_eq_left hle

theorem left_many (h : p (.of ts) = .done a (.of us) missed) (hlt : us.length < ts.length)
    (hle : (many p (.of us)).left ≤ us.length) :
    (many p (.of ts)).left = min (p (.of ts)).left (many p (.of us)).left := by
  obtain ⟨as, vs, missed', hs⟩ := exists_many p us
  rw [hs] at hle
  rw [many_of_done h hlt hs, hs, h]
  exact Miss.leftOr_furthest?.trans (Miss.leftOr_of_le hle)

/-! ## Parsers that never go back -/

namespace Forward

theorem failed (hp : Forward p) (h : p (.of ts) = .failed miss) : miss.left ≤ ts.length := by
  have hle := hp ts
  rwa [h] at hle

theorem pure : Forward (Pure.pure a : Parser α) :=
  fun _ => Nat.le_refl _

theorem bind (hp : Forward p) (hf : ∀ a, Forward (f a)) : Forward (p >>= f) := by
  intro ts
  rcases done_or_failed p ts with ⟨a, us, missed, h⟩ | ⟨miss, h⟩
  · rw [left_bind h (hf a us)]
    exact (Nat.min_le_left _ _).trans (hp ts)
  · rw [bind_of_failed h]
    exact hp.failed h

theorem optional (hp : Forward p) : Forward (optional p) := by
  intro ts
  rcases done_or_failed p ts with ⟨a, us, missed, h⟩ | ⟨miss, h⟩
  · have hle := hp ts
    rw [h] at hle
    rw [optional_of_done h]
    exact hle
  · rw [left_optional_of_failed h (hp.failed h)]
    exact hp.failed h

theorem many (hp : Forward p) : Forward (many p) := by
  intro ts
  induction hn : ts.length using Nat.strongRecOn generalizing ts with
  | ind n ih =>
      subst hn
      rcases done_or_failed p ts with ⟨a, us, missed, h⟩ | ⟨miss, h⟩
      · rcases Nat.lt_or_ge us.length ts.length with hlt | hge
        · rw [left_many h hlt (ih us.length hlt us rfl)]
          exact (Nat.min_le_left _ _).trans (hp ts)
        · have hle := hp ts
          rw [h] at hle
          rw [many_of_done_of_le h hge]
          exact hle
      · rw [left_many_of_failed h (hp.failed h)]
        exact hp.failed h

end Forward

theorem Tells.forward {L : Language Lexeme} (h : Tells p L) : Forward p := by
  intro ts
  rcases done_or_failed p ts with ⟨a, us, missed, hp⟩ | ⟨miss, hp⟩
  · obtain ⟨xs, rfl, -⟩ := h.sound _ _ _ _ hp
    rw [hp]
    refine Outcome.left_done_le.trans ?_
    rw [List.length_append]
    exact Nat.le_add_left _ _
  · rw [hp]
    exact (h.failed hp).truthful.left_le

/-! ## Parsers that stop at once -/

/-- A parser that fails at the first of some lexemes. -/
def FailsHere (p : Parser α) (ts : List Lexeme) : Prop :=
  ∃ miss, p (.of ts) = .failed miss ∧ miss.left = ts.length

theorem FailsHere.bind (h : FailsHere p ts) : FailsHere (p >>= f) ts := by
  obtain ⟨miss, hp, hleft⟩ := h
  exact ⟨miss, bind_of_failed hp, hleft⟩

theorem failsHere_token {k : Token} (h : ∀ t ∈ ts.head?, t.token ≠ k) : FailsHere (token k) ts := by
  cases ts with
  | nil => exact ⟨_, rfl, rfl⟩
  | cons t ts =>
      have hne : t.token ≠ k := h t rfl
      refine ⟨⟨(t :: ts).length, [some k]⟩, ?_, rfl⟩
      simp only [token, Input.next?_cons, if_neg hne]
      rfl

/-- A parser that does not read the first of some lexemes: it fails there, or leaves them all, and
then they have a given property. -/
structure Refuses (K : List Lexeme → Prop) (p : Parser α) (ts : List Lexeme) : Prop where
  left_eq : (p (.of ts)).left = ts.length
  stops : ∀ a us missed, p (.of ts) = .done a (.of us) missed → K us

namespace Refuses

variable {H K : List Lexeme → Prop}

theorem of_failsHere (h : FailsHere p ts) : Refuses K p ts := by
  obtain ⟨miss, hp, hleft⟩ := h
  refine ⟨?_, fun a us missed hd => ?_⟩
  · rw [hp]
    exact hleft
  · rw [hp] at hd
    cases hd

theorem pure (h : K ts) : Refuses K (Pure.pure a : Parser α) ts := by
  refine ⟨rfl, fun b us missed hd => ?_⟩
  obtain ⟨-, rfl⟩ := reads_pure.mp ⟨missed, hd⟩
  exact h

/-- After a parser that reads nothing the next one stands at the same place. -/
theorem bind (hp : Refuses H p ts) (hf : ∀ a us, H us → Refuses K (f a) us) :
    Refuses K (p >>= f) ts := by
  rcases done_or_failed p ts with ⟨a, us, missed, h⟩ | ⟨miss, h⟩
  · have hnext := hf a us (hp.stops a us missed h)
    have hle : ts.length ≤ us.length := by
      rw [← hp.left_eq, h]
      exact Outcome.left_done_le
    refine ⟨?_, fun b vs missed' hd => ?_⟩
    · rw [left_bind h hnext.left_eq.le, hp.left_eq, hnext.left_eq, Nat.min_eq_left hle]
    · obtain ⟨a', us', h', _, hb⟩ := reads_bind.mp ⟨missed', hd⟩
      obtain ⟨rfl, rfl⟩ := h'.unique ⟨missed, h⟩
      exact hnext.stops b vs _ hb
  · refine .of_failsHere ⟨miss, bind_of_failed h, ?_⟩
    rw [← hp.left_eq, h, Outcome.left_failed]

theorem many (h : FailsHere p ts) (hK : K ts) : Refuses K (many p) ts := by
  obtain ⟨miss, hp, hleft⟩ := h
  refine ⟨?_, fun as us missed hd => ?_⟩
  · rw [left_many_of_failed hp hleft.le, hleft]
  · obtain ⟨-, rfl⟩ := Reads.unique ⟨missed, hd⟩ ⟨some miss, many_of_failed hp⟩
    exact hK

end Refuses

end Parser

end NameCheck
