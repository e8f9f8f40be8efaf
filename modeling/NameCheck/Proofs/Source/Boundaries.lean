import NameCheck.Proofs.Source.Lines
import NameCheck.Proofs.Token.Places

/-!
# Places and positions

The byte offsets between the characters of a text and the positions in its lines are the same
places.  A line index leads from the ones to the others and back, and keeps their order.
-/

namespace NameCheck

namespace Text

variable {text lines line rest : List Char} {n : Nat}

/-- An offset stands between two characters of a text, or at one of its ends. -/
def IsBoundary (text : List Char) (offset : Nat) : Prop :=
  ∃ before, before <+: text ∧ utf8Length before = offset

/-- A position stands before or behind a character of its line. -/
def HasPosition (text : List Char) (p : Position) : Prop :=
  1 ≤ p.line ∧ 1 ≤ p.column ∧
    ∃ line, (text.splitOn '\n')[p.line - 1]? = some line ∧ p.column ≤ line.length + 1

/-! ## Lines -/

theorem length_splitOn (text : List Char) :
    (text.splitOn '\n').length = text.count '\n' + 1 := by
  induction text with
  | nil => rfl
  | cons c cs ih =>
      rw [List.splitOn_cons_eq_if_modifyHead, List.count_cons]
      split
      · rw [List.length_cons, ih]
      · rw [List.length_modifyHead, ih, Nat.add_zero]

theorem splitOn_line (hline : '\n' ∉ line) (hrest : rest = [] ∨ ∃ more, rest = '\n' :: more) :
    ((line ++ rest).splitOn '\n')[0]? = some line := by
  rcases hrest with rfl | ⟨more, rfl⟩
  · rw [List.append_nil, List.splitOn_eq_singleton hline]
    rfl
  · rw [List.splitOn_append_cons_self, List.splitOn_eq_singleton hline]
    rfl

/-- Behind whole lines the text up to the next line feed is a line. -/
theorem splitOn_lines (hlines : WholeLines lines) (hline : '\n' ∉ line)
    (hrest : rest = [] ∨ ∃ more, rest = '\n' :: more) :
    ((lines ++ (line ++ rest)).splitOn '\n')[lines.count '\n']? = some line := by
  rcases hlines with rfl | ⟨cs, rfl⟩
  · exact splitOn_line hline hrest
  · have hcount : (cs ++ ['\n']).count '\n' = (cs.splitOn '\n').length := by
      rw [length_splitOn, List.count_append]
      rfl
    rw [List.append_assoc, List.singleton_append, List.splitOn_append_cons_self, hcount,
      List.getElem?_append_right (Nat.le_refl _), Nat.sub_self, splitOn_line hline hrest]

theorem WholeLines.cons {c : Char} (hlines : WholeLines lines) (h : lines = [] → c = '\n') :
    WholeLines (c :: lines) := by
  rcases hlines with rfl | ⟨cs, rfl⟩
  · exact Or.inr ⟨[], by rw [h rfl]; rfl⟩
  · exact Or.inr ⟨c :: cs, rfl⟩

theorem WholeLines.eq_nil (hlines : WholeLines lines) (h : lines.count '\n' = 0) : lines = [] := by
  rcases hlines with rfl | ⟨cs, rfl⟩
  · rfl
  · rw [List.count_append] at h
    exact absurd h (Nat.succ_ne_zero _)

/-- A line stands behind the whole lines before it. -/
theorem exists_lines_of_splitOn (h : (text.splitOn '\n')[n]? = some line) :
    ∃ lines rest, text = lines ++ (line ++ rest) ∧ WholeLines lines ∧ lines.count '\n' = n ∧
      '\n' ∉ line := by
  induction text generalizing n line with
  | nil =>
      cases n with
      | zero =>
          cases h
          exact ⟨[], [], rfl, Or.inl rfl, rfl, List.not_mem_nil⟩
      | succ n => cases h
  | cons c cs ih =>
      rw [List.splitOn_cons_eq_if_modifyHead] at h
      split at h
      · rename_i hc
        obtain rfl := beq_iff_eq.mp hc
        cases n with
        | zero =>
            cases h
            exact ⟨[], '\n' :: cs, rfl, Or.inl rfl, rfl, List.not_mem_nil⟩
        | succ n =>
            obtain ⟨lines, rest, rfl, hlines, hcount, hline⟩ := ih h
            refine ⟨'\n' :: lines, rest, rfl, hlines.cons fun _ => rfl, ?_, hline⟩
            rw [List.count_cons_self, hcount]
      · rename_i hc
        have hc' : c ≠ '\n' := mt beq_iff_eq.mpr hc
        -- The character joins the first line, so a later line keeps its number.
        obtain ⟨first, others, hsplit⟩ := List.exists_cons_of_ne_nil (List.splitOn_ne_nil '\n' cs)
        rw [hsplit, List.modifyHead_cons] at h
        cases n with
        | zero =>
            obtain ⟨lines, rest, rfl, hlines, hcount, hfirst⟩ := ih (n := 0) (by rw [hsplit]; rfl)
            obtain rfl := hlines.eq_nil hcount
            cases h
            have hline := List.not_mem_cons_of_ne_of_not_mem hc'.symm hfirst
            exact ⟨[], rest, rfl, Or.inl rfl, rfl, hline⟩
        | succ n =>
            have hget : (cs.splitOn '\n')[n + 1]? = some line := by rw [hsplit, ← h]; rfl
            obtain ⟨lines, rest, rfl, hlines, hcount, hline⟩ := ih hget
            refine ⟨c :: lines, rest, rfl, hlines.cons ?_, ?_, hline⟩
            · rintro rfl
              cases hcount
            · rw [List.count_cons_of_ne hc', hcount]

/-- A line goes on up to the next line feed, or to the end. -/
theorem exists_line_end (rest : List Char) : ∃ more after, rest = more ++ after ∧ '\n' ∉ more ∧
    (after = [] ∨ ∃ behind, after = '\n' :: behind) := by
  by_cases h : '\n' ∈ rest
  · obtain ⟨more, behind, rfl, hmore⟩ := List.eq_append_cons_of_mem h
    exact ⟨more, '\n' :: behind, rfl, hmore, Or.inr ⟨behind, rfl⟩⟩
  · exact ⟨rest, [], (List.append_nil rest).symm, h, Or.inl rfl⟩

/-! ## Places -/

/-- What stands before a place leads to a position of the text. -/
theorem hasPosition_after (before rest : List Char) :
    HasPosition (before ++ rest) (Position.first.after before) := by
  obtain ⟨lines, line, rfl, hlines, hline⟩ := exists_lines before
  obtain ⟨more, after, rfl, hmore, hafter⟩ := exists_line_end rest
  have hwhole : '\n' ∉ line ++ more := fun h => (List.mem_append.mp h).elim hline hmore
  have hget := splitOn_lines hlines hwhole hafter
  rw [Position.first_after_line hlines hline]
  refine ⟨Nat.le_add_left _ _, Nat.le_add_left _ _, line ++ more, ?_, ?_⟩
  · rwa [Nat.add_sub_cancel, List.append_assoc, ← List.append_assoc line]
  · rw [List.length_append]
    exact Nat.succ_le_succ (Nat.le_add_right _ _)

/-- A position of a text is reached by counting along what stands before some place. -/
theorem HasPosition.exists_before {p : Position} (h : HasPosition text p) :
    ∃ before rest, text = before ++ rest ∧ p = Position.first.after before := by
  obtain ⟨hl, hc, line, hget, hle⟩ := h
  obtain ⟨lines, rest, rfl, hlines, hcount, hline⟩ := exists_lines_of_splitOn hget
  have htake : '\n' ∉ line.take (p.column - 1) := fun h => hline (List.mem_of_mem_take h)
  refine ⟨lines ++ line.take (p.column - 1), line.drop (p.column - 1) ++ rest, ?_, ?_⟩
  · rw [List.append_assoc, ← List.append_assoc (line.take _), List.take_append_drop]
  · rw [Position.first_after_line hlines htake, hcount, List.length_take_of_le (by omega),
      Nat.sub_add_cancel hl, Nat.sub_add_cancel hc]

end Text

open Text

namespace LineIndex

variable {text : List Char} {o o₁ o₂ : Nat} {p : Position}

theorem position_of_boundary (h : IsBoundary text o) :
    HasPosition text ((ofText text).position o) ∧
      (ofText text).offset ((ofText text).position o) = o := by
  obtain ⟨before, ⟨rest, rfl⟩, rfl⟩ := h
  rw [position_utf8Length]
  exact ⟨hasPosition_after before rest, offset_after before rest⟩

theorem offset_of_hasPosition (h : HasPosition text p) :
    IsBoundary text ((ofText text).offset p) ∧
      (ofText text).position ((ofText text).offset p) = p := by
  obtain ⟨before, rest, rfl, rfl⟩ := h.exists_before
  rw [offset_after]
  exact ⟨⟨before, List.prefix_append before rest, rfl⟩, position_utf8Length before rest⟩

theorem position_lt_position (h₁ : IsBoundary text o₁) (h₂ : IsBoundary text o₂) (h : o₁ < o₂) :
    (ofText text).position o₁ < (ofText text).position o₂ := by
  obtain ⟨cs, ⟨rest, hrest⟩, rfl⟩ := h₁
  obtain ⟨ds, ⟨rest', hrest'⟩, rfl⟩ := h₂
  obtain ⟨es, hes, rfl⟩ := exists_append_of_utf8Length_lt ⟨rest, hrest⟩ ⟨rest', hrest'⟩ h
  have hposition := position_utf8Length cs rest
  have hposition' := position_utf8Length (cs ++ es) rest'
  rw [hrest] at hposition
  rw [hrest', Position.after_append] at hposition'
  rw [hposition, hposition']
  exact Position.lt_after hes

/-- Places and positions correspond.  The offsets between characters lead to the positions of
the lines and back, and stand in the same order. -/
theorem offset_position (text : List Char) :
    let index := ofText text
    index.lineCount = (text.splitOn '\n').length ∧
      (∀ o, IsBoundary text o →
        HasPosition text (index.position o) ∧ index.offset (index.position o) = o) ∧
      (∀ p, HasPosition text p →
        IsBoundary text (index.offset p) ∧ index.position (index.offset p) = p) ∧
      ∀ o₁ o₂, IsBoundary text o₁ → IsBoundary text o₂ →
        (o₁ < o₂ ↔ index.position o₁ < index.position o₂) := by
  intro index
  refine ⟨?_, fun o => position_of_boundary, fun p => offset_of_hasPosition, ?_⟩
  · rw [lineCount_ofText, length_splitOn]
  · intro o₁ o₂ h₁ h₂
    constructor
    · exact position_lt_position h₁ h₂
    · intro hlt
      rcases Nat.lt_trichotomy o₁ o₂ with h | rfl | h
      · exact h
      · exact absurd hlt (Position.lt_irrefl _)
      · exact absurd hlt (Position.lt_asymm (position_lt_position h₂ h₁ h))

/-- The line feed after a character of two bytes, and the empty line behind it. -/
theorem offset_position_of_empty_line :
    IsBoundary ['é', '\n'] 2 ∧ HasPosition ['é', '\n'] ⟨2, 1⟩ ∧
      (ofText ['é', '\n']).offset ((ofText ['é', '\n']).position 2) = 2 ∧
      (ofText ['é', '\n']).position ((ofText ['é', '\n']).offset ⟨2, 1⟩) = ⟨2, 1⟩ ∧
      (ofText ['é', '\n']).position 2 < (ofText ['é', '\n']).position 3 := by
  have hfeed : IsBoundary ['é', '\n'] 2 := ⟨['é'], ⟨['\n'], rfl⟩, by decide⟩
  have hend : IsBoundary ['é', '\n'] 3 := ⟨['é', '\n'], ⟨[], rfl⟩, by decide⟩
  have hline : HasPosition ['é', '\n'] ⟨2, 1⟩ := ⟨by decide, by decide, [], rfl, by decide⟩
  obtain ⟨-, hoffset, hposition, horder⟩ := offset_position ['é', '\n']
  exact ⟨hfeed, hline, (hoffset 2 hfeed).2, (hposition ⟨2, 1⟩ hline).2,
    (horder 2 3 hfeed hend).mp (by decide)⟩

end LineIndex

end NameCheck
