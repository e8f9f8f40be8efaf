import NameCheck.Proofs.Resolve.Refinement

/-!
# What a check comes to

A check succeeds exactly if the lexemes of the text are read as a program; its analysis is then
that of lexical scoping.
-/

namespace NameCheck

variable {source : String}

/-- What a check finds in a text that is read as a program. -/
def Checked.ofProgram (source : String) (p : Program) : Checked where
  program := p
  analysis := p.lexical
  sink := (Sink.empty.extend (Tokens.ofString source).diagnostics).extend
    (p.lexical.errors.map SemanticError.diagnostic)

theorem check_of_parse {p : Program}
    (h : Program.parse (Tokens.ofString source).lexemes (Tokens.ofString source).eoi = .ok p) :
    check source = .ok (.ofProgram source p) := by
  rw [check, h]
  change (p.analyze.mapError CheckError.scope).bind _ = _
  rw [p.analyze_eq_lexical]
  rfl

/-- A syntax error ends a check, with what tokenizing reported before it. -/
theorem check_of_parse_error {error : SyntaxError}
    (h : Program.parse (Tokens.ofString source).lexemes (Tokens.ofString source).eoi =
      .error error) :
    check source = .error
      (.syntaxErrors ((Tokens.ofString source).diagnostics ++ [error.diagnostic])) := by
  rw [check, h]
  change Except.error (CheckError.syntaxErrors
    ((Sink.empty.extend (Tokens.ofString source).diagnostics).diagnostics ++ _)) = _
  rw [Sink.diagnostics_extend]
  rfl

theorem check_ok_iff {checked : Checked} :
    check source = .ok checked ↔
      ∃ p, Program.parse (Tokens.ofString source).lexemes (Tokens.ofString source).eoi = .ok p ∧
        checked = .ofProgram source p := by
  constructor
  · intro h
    cases hp : Program.parse (Tokens.ofString source).lexemes (Tokens.ofString source).eoi with
    | error error =>
        rw [check, hp] at h
        cases h
    | ok p =>
        rw [check_of_parse hp] at h
        cases h
        exact ⟨p, rfl, rfl⟩
  · rintro ⟨p, hp, rfl⟩
    exact check_of_parse hp

/-- A check of which something is known succeeds. -/
theorem exists_check_of_map {α : Type} {f : Checked → α} {a : α}
    (h : (check source).toOption.map f = some a) :
    ∃ checked, check source = .ok checked ∧ f checked = a := by
  cases hc : check source with
  | error error =>
      rw [hc] at h
      cases h
  | ok checked =>
      rw [hc] at h
      exact ⟨checked, rfl, Option.some.inj h⟩

end NameCheck
