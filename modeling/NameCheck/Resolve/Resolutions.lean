import NameCheck.Source.Position
import NameCheck.Symbol.Basic

/-!
# Resolutions

What each occurrence of a name was found to mean, by the position of the occurrence.  The table
is kept in the order of positions; what is recorded last at a position stands.
-/

namespace NameCheck

/-- Symbols by position, the first position first. -/
structure Resolutions where
  entries : List (Position × Symbol)

namespace Resolutions

/-- A table without entries. -/
def empty : Resolutions := ⟨[]⟩

/-- Enters a symbol into a list in the order of positions. -/
def enter (p : Position) (symbol : Symbol) :
    List (Position × Symbol) → List (Position × Symbol)
  | [] => [(p, symbol)]
  | (q, other) :: rest =>
    if q < p then (q, other) :: enter p symbol rest
    else if q = p then (p, symbol) :: rest
    else (p, symbol) :: (q, other) :: rest

/-- Records what stands at a position. -/
def record (table : Resolutions) (p : Position) (symbol : Symbol) : Resolutions :=
  ⟨enter p symbol table.entries⟩

/-- What was recorded at a position. -/
def get? (table : Resolutions) (p : Position) : Option Symbol :=
  table.entries.lookup p

/-- The number of positions with an entry. -/
def size (table : Resolutions) : Nat :=
  table.entries.length

/-- Whether nothing was recorded. -/
def isEmpty (table : Resolutions) : Bool :=
  table.entries.isEmpty

/-! ## Last write wins -/

@[simp]
theorem get?_empty (p : Position) : empty.get? p = none := rfl

theorem get?_cons (entry : Position × Symbol) (entries : List (Position × Symbol))
    (p : Position) :
    (Resolutions.mk (entry :: entries)).get? p =
      if p = entry.1 then some entry.2 else (Resolutions.mk entries).get? p := by
  obtain ⟨q, symbol⟩ := entry
  unfold get?
  rw [List.lookup_cons]
  by_cases h : p = q
  · simp [h]
  · rw [if_neg h, beq_false_of_ne h]

/-- A record changes what stands at its own position and nothing else. -/
theorem get?_record (table : Resolutions) (p q : Position) (symbol : Symbol) :
    (table.record p symbol).get? q = if q = p then some symbol else table.get? q := by
  obtain ⟨entries⟩ := table
  induction entries with
  | nil => exact get?_cons _ _ _
  | cons entry entries ih =>
    obtain ⟨r, other⟩ := entry
    simp only [record, enter] at ih ⊢
    by_cases hlt : r < p
    · rw [if_pos hlt, get?_cons, get?_cons, ih]
      by_cases hq : q = r
      · have : q ≠ p := fun e => Position.lt_irrefl p ((hq.symm.trans e) ▸ hlt)
        rw [if_pos hq, if_neg this, if_pos hq]
      · rw [if_neg hq, if_neg hq]
    · rw [if_neg hlt]
      by_cases heq : r = p
      · rw [if_pos heq, get?_cons, get?_cons, heq]
        by_cases hq : q = p <;> simp [hq]
      · rw [if_neg heq, get?_cons]

/-! ## Order -/

/-- The positions of a table strictly increase. -/
def Sorted (table : Resolutions) : Prop :=
  table.entries.Pairwise fun a b => a.1 < b.1

theorem sorted_empty : empty.Sorted := List.Pairwise.nil

theorem mem_enter {p : Position} {symbol : Symbol} {entries : List (Position × Symbol)}
    {entry : Position × Symbol} (h : entry ∈ enter p symbol entries) :
    entry = (p, symbol) ∨ entry ∈ entries := by
  induction entries with
  | nil => exact Or.inl (List.mem_singleton.1 h)
  | cons first entries ih =>
    obtain ⟨q, other⟩ := first
    rw [enter] at h
    by_cases hlt : q < p
    · rw [if_pos hlt, List.mem_cons] at h
      rcases h with rfl | h
      · exact Or.inr List.mem_cons_self
      · exact (ih h).imp_right (List.mem_cons_of_mem _)
    · rw [if_neg hlt] at h
      by_cases heq : q = p
      · rw [if_pos heq, List.mem_cons] at h
        exact h.imp_right (List.mem_cons_of_mem _)
      · rw [if_neg heq, List.mem_cons] at h
        exact h

theorem Sorted.record {table : Resolutions} (h : table.Sorted) (p : Position)
    (symbol : Symbol) : (table.record p symbol).Sorted := by
  obtain ⟨entries⟩ := table
  simp only [Sorted, Resolutions.record] at h ⊢
  induction entries with
  | nil => exact List.pairwise_singleton _ _
  | cons first entries ih =>
    obtain ⟨q, other⟩ := first
    obtain ⟨hfirst, hrest⟩ := List.pairwise_cons.1 h
    rw [enter]
    by_cases hlt : q < p
    · rw [if_pos hlt]
      refine List.pairwise_cons.2 ⟨fun entry hentry => ?_, ih hrest⟩
      rcases mem_enter hentry with rfl | hentry
      · exact hlt
      · exact hfirst entry hentry
    · rw [if_neg hlt]
      by_cases heq : q = p
      · rw [if_pos heq]
        exact List.pairwise_cons.2 ⟨heq ▸ hfirst, hrest⟩
      · rw [if_neg heq]
        have hpq : p < q := by
          by_cases hpq : p < q
          · exact hpq
          · exact absurd (Position.eq_of_not_lt hlt hpq) heq
        refine List.pairwise_cons.2 ⟨fun entry hentry => ?_, h⟩
        rcases List.mem_cons.1 hentry with rfl | hentry
        · exact hpq
        · exact Position.lt_trans hpq (hfirst entry hentry)

end Resolutions

end NameCheck
