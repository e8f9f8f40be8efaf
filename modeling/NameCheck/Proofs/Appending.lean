import NameCheck.Proofs.Check
import NameCheck.Proofs.Grammar.Exact
import NameCheck.Proofs.Grammar.Layout
import NameCheck.Proofs.Grammar.Tracks
import NameCheck.Proofs.Resolve.Accounting
import NameCheck.Proofs.Resolve.Globals
import NameCheck.Proofs.Token.Seam

/-!
# Appending to a text

What is appended to a text, after a line feed, does not change what was found in it.  Its
declarations come first, those of the rest stand further down, and a name keeps what it means.
-/

namespace NameCheck

/-! ## Lexemes -/

theorem Lexeme.moves_lower (n : Nat) (lexemes : List Lexeme) :
    List.Forall₂ (Lexeme.Moves (Position.lower n)) lexemes (lexemes.map (Lexeme.lower n)) := by
  induction lexemes with
  | nil => exact .nil
  | cons lexeme lexemes ih => exact .cons ⟨rfl, rfl⟩ ih

/-! ## Programs -/

namespace Program

variable {p q : Program} {ts us : List Lexeme} {eoi eoi' : Span}

/-- Lexemes that are read as programs one by one are read as both in one. -/
theorem parse_append (hp : parse ts eoi = .ok p) (hq : parse us eoi' = .ok q) (eoi'' : Span) :
    parse (ts ++ us) eoi'' = .ok ⟨p.decls ++ q.decls⟩ := by
  rw [parse_ok_iff_derives] at hp hq ⊢
  cases hp with
  | program hp =>
      cases hq with
      | program hq => exact .program (hp.many_append hq)

/-- A program is read from the same lexemes further down, further down. -/
theorem parse_lower (hp : parse ts eoi = .ok p) (n : Nat) (eoi' : Span) :
    parse (ts.map (Lexeme.lower n)) eoi' = .ok (p.relocate (Position.lower n)) := by
  rcases parse_moves (Lexeme.moves_lower n ts) eoi eoi' with ⟨miss, hmiss, -⟩ | ⟨q, hq, hlower⟩
  · rw [hp] at hmiss
    cases hmiss
  · rw [hp] at hq
    cases hq
    exact hlower

variable {decls : List Decl}

/-- What a program reports is reported first if declarations come after it. -/
theorem errors_append (p : Program) (decls : List Decl) :
    p.lexical.errors <+: (lexical ⟨p.decls ++ decls⟩).errors := by
  rw [lexical, lexical, Analysis.add_errors, Analysis.add_errors, sites, sites,
    Decl.sitesAll_append, List.flatMap_append]
  exact List.prefix_append _ _

/-- What a program records stays if declarations come after it and all names occur at places of
their own. -/
theorem get?_append
    (hdistinct : (sites ⟨p.decls ++ decls⟩).Pairwise fun a b => a.ident.pos ≠ b.ident.pos)
    {pos : Position} {symbol : Symbol} (h : p.lexical.resolutions.get? pos = some symbol) :
    (lexical ⟨p.decls ++ decls⟩).resolutions.get? pos = some symbol := by
  obtain ⟨x, hx, rfl⟩ := exists_site_of_get? h
  have hsites : sites ⟨p.decls ++ decls⟩ = p.sites ++ Decl.sitesAll p.env decls :=
    Decl.sitesAll_append p.decls decls
  rw [hsites] at hdistinct
  obtain ⟨-, -, hapart⟩ := List.pairwise_append.mp hdistinct
  have hne : ∀ y ∈ Decl.sitesAll p.env decls, y.ident.pos ≠ x.ident.pos :=
    fun y hy => (hapart x hx y hy).symm
  rw [lexical, Analysis.add_resolutions, hsites, List.flatMap_append, List.foldl_append,
    Resolutions.get?_foldl_record_of_ne (Analysis.ne_of_mem_meanings hne)]
  exact h

end Program

/-! ## Checks -/

/-- Appending changes nothing that was found before.  Two texts that can be read can be read
together, with a line feed between them: as the declarations of the first, and then those of the
second with their places further down.  What was reported about the first text is reported first,
what was recorded stays recorded, and what was bound at the top stays bound. -/
theorem check_append {source rest : String} {p q : Program}
    (hp : Program.parse (Tokens.ofString source).lexemes (Tokens.ofString source).eoi = .ok p)
    (hq : Program.parse (Tokens.ofString rest).lexemes (Tokens.ofString rest).eoi = .ok q) :
    let whole := source ++ "\n" ++ rest
    let further := Position.lower (source.toList.count '\n' + 1)
    Program.parse (Tokens.ofString whole).lexemes (Tokens.ofString whole).eoi =
        .ok ⟨p.decls ++ (q.relocate further).decls⟩ ∧
      ∃ checked checked' : Checked, check source = .ok checked ∧ check whole = .ok checked' ∧
        checked.program = p ∧ checked'.program = ⟨p.decls ++ (q.relocate further).decls⟩ ∧
        checked.analysis.errors <+: checked'.analysis.errors ∧
        (∀ pos symbol, checked.analysis.resolutions.get? pos = some symbol →
          checked'.analysis.resolutions.get? pos = some symbol) ∧
        ∃ global global', checked.analysis.scopes = .ofFrame global ∧
          checked'.analysis.scopes = .ofFrame global' ∧
          ∀ name symbol, global.lookup name = some symbol →
            global'.lookup name = some symbol := by
  intro whole further
  have hwhole : Program.parse (Tokens.ofString whole).lexemes (Tokens.ofString whole).eoi =
      .ok ⟨p.decls ++ (q.relocate further).decls⟩ := by
    rw [Tokens.lexemes_append]
    exact Program.parse_append hp (Program.parse_lower hq _ (Tokens.ofString rest).eoi) _
  have hdistinct := Program.pairwise_sites (Program.occurrences_ordered hwhole)
  refine ⟨hwhole, _, _, check_of_parse hp, check_of_parse hwhole, rfl, rfl, p.errors_append _,
    fun _ _ => Program.get?_append hdistinct, p.env.inner, _, p.stack_env, Program.stack_env _,
    fun name symbol h => Program.lookup_env_of_before h _⟩

/-- A comment in the last line of a text, and a name that is declared again in what follows. -/
theorem check_append_after_comment :
    let source := "bool x; void z; // x"
    let rest := "int x;\nint f()\x7breturn x;\x7d"
    ∃ checked checked', check source = .ok checked ∧
      check (source ++ "\n" ++ rest) = .ok checked' ∧
      checked.analysis.errors = [.nonFunctionVoid "z" ⟨1, 14⟩] ∧
      checked'.analysis.errors =
        [.nonFunctionVoid "z" ⟨1, 14⟩, .multiplyDeclared "x" ⟨2, 5⟩] ∧
      ∀ pos symbol, checked.analysis.resolutions.get? pos = some symbol →
        checked'.analysis.resolutions.get? pos = some symbol := by
  intro source rest
  have hsource : (check source).toOption.map (fun checked => checked.analysis.errors) =
      some [.nonFunctionVoid "z" ⟨1, 14⟩] := by
    decide +kernel
  have hrest : (check rest).toOption.map (fun checked => checked.analysis.errors) = some [] := by
    decide +kernel
  have hwhole : (check (source ++ "\n" ++ rest)).toOption.map
      (fun checked => checked.analysis.errors) =
        some [.nonFunctionVoid "z" ⟨1, 14⟩, .multiplyDeclared "x" ⟨2, 5⟩] := by
    decide +kernel
  obtain ⟨first, hfirst, -⟩ := exists_check_of_map hsource
  obtain ⟨second, hsecond, -⟩ := exists_check_of_map hrest
  obtain ⟨p, hp, rfl⟩ := check_ok_iff.mp hfirst
  obtain ⟨q, hq, rfl⟩ := check_ok_iff.mp hsecond
  obtain ⟨-, checked, checked', hchecked, hchecked', -, -, -, hkept, -⟩ := check_append hp hq
  rw [hchecked] at hsource
  rw [hchecked'] at hwhole
  exact ⟨checked, checked', hchecked, hchecked', Option.some.inj hsource, Option.some.inj hwhole,
    hkept⟩

end NameCheck
