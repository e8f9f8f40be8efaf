import NameCheck.Grammar.SyntaxError
import NameCheck.Proofs.Grammar.Completeness

/-!
# Reading programs is exact

The lexemes that are read as a program are those that the grammar derives, and the tree that is
read is the tree of every derivation of them.
-/

namespace NameCheck

open NameCheck.Grammar NameCheck.Parser

theorem Parser.parse_ok_iff {α : Type} {p : Parser α} {lexemes : List Lexeme} {eoi : Span}
    {a : α} : p.parse lexemes eoi = .ok a ↔ ∃ us, Reads p lexemes a us := by
  simp only [Parser.parse, Parser.run, Reads]
  cases p (.of lexemes) with
  | done b rest missed =>
      constructor
      · rintro ⟨⟩
        exact ⟨rest.rest, missed, by rw [Input.of_rest]⟩
      · rintro ⟨us, _, hd⟩
        cases hd
        rfl
  | failed miss =>
      constructor
      · rintro ⟨⟩
      · rintro ⟨us, _, ⟨⟩⟩

theorem Grammar.Reads.program_rest {lexemes us : List Lexeme} {p : Program}
    (h : Reads program lexemes p us) : us = [] := by
  simp only [program, whole, reads_bind, reads_endOfInput, reads_pure] at h
  obtain ⟨_, _, _, _, _, ⟨-, rfl⟩, -, rfl⟩ := h
  rfl

namespace Program

theorem parse_ok_iff_derives {lexemes : List Lexeme} {eoi : Span} {p : Program} :
    parse lexemes eoi = .ok p ↔ Derives .program lexemes p := by
  rw [parse, Parser.parse_ok_iff]
  constructor
  · rintro ⟨us, hread⟩
    obtain ⟨xs, rfl, hxs⟩ := sound_program _ _ _ hread
    rwa [Grammar.Reads.program_rest hread, List.append_nil]
  · intro h
    have hread := h.readsBack [] rfl
    rw [List.append_nil] at hread
    exact ⟨[], hread⟩

/-- Reading succeeds exactly on the lexemes that are derived from the grammar, and then yields the
tree of every derivation of them. -/
theorem parse_exact (lexemes : List Lexeme) (eoi : Span) :
    ((∃ p, parse lexemes eoi = .ok p) ↔ ∃ p, Derives .program lexemes p) ∧
      ∀ p, parse lexemes eoi = .ok p →
        Derives .program lexemes p ∧ ∀ q, Derives .program lexemes q → q = p := by
  constructor
  · simp only [parse_ok_iff_derives]
  · intro p hp
    refine ⟨parse_ok_iff_derives.mp hp, fun q hq => ?_⟩
    have hq' : parse lexemes eoi = .ok q := parse_ok_iff_derives.mpr hq
    rw [hp] at hq'
    cases hq'
    rfl

end Program

end NameCheck
