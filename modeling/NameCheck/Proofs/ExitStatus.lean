import NameCheck.CommandLine
import NameCheck.Proofs.Resolve.Spelling
import NameCheck.Proofs.Token.Spans

/-!
# Exit statuses

The exit status of a check and that of a listing of tokens are decided in different places: by the
error that ends a check, by the sink of a check that comes to its end, and by the sink of the
listing.  They agree on what is fatal, and what is written to the standard output agrees with them.
-/

namespace NameCheck.CommandLine

open Text

/-- Nothing is wrong with a text: tokenizing reports nothing fatal, the tokens are read as a
program, and the analysis of the program has no errors. -/
def Faultless (source : String) : Prop :=
  (∀ d ∈ (Tokens.ofString source).diagnostics, d.isFatal = false) ∧
    ∃ p analysis,
      Program.parse (Tokens.ofString source).lexemes (Tokens.ofString source).eoi = .ok p ∧
        p.analyze = .ok analysis ∧ analysis.errors = []

/-- The closing line of a check by which nothing fatal was found. -/
def successLine (settings : ColorSettings) (noColor : Bool) (file : String) : String :=
  styledLine (settings.enabled && !noColor) .green ("✅ " ++ file ++ " 无错误")

/-- The line in which a lexeme is listed, without its end. -/
def entry (lexeme : Lexeme) : String :=
  lexeme.span.start.text ++ "\t" ++ lexeme.token.text

/-- What a check of a text leaves. -/
structure Result.OfCheck (source : String) (dumpSymbols : Bool) (success : String)
    (result : Result) : Prop where
  exit_zero : result.exit = 0 ↔ Faultless source
  exit_one : result.exit = 1 ↔ ¬Faultless source
  stdout_of_parse : ∀ p,
    Program.parse (Tokens.ofString source).lexemes (Tokens.ofString source).eoi = .ok p →
      ∃ analysis, p.analyze = .ok analysis ∧ result.stdout =
        (if dumpSymbols then analysis.scopes.dump else "") ++
          if result.exit = 0 then success else ""
  stdout_of_parse_error : ∀ error,
    Program.parse (Tokens.ofString source).lexemes (Tokens.ofString source).eoi = .error error →
      result.stdout = ""
  success_iff : success.toList <:+: result.stdout.toList ↔ result.exit = 0
  dump_iff : dumpSymbols = true →
    ("=== Sym Table ===\n".toList <:+: result.stdout.toList ↔
      ∃ p, Program.parse (Tokens.ofString source).lexemes (Tokens.ofString source).eoi = .ok p)

/-- What a listing of the tokens of a text leaves. -/
structure Result.OfTokens (source : String) (result : Result) : Prop where
  exit_one : result.exit = 1 ↔ ∃ d ∈ (Tokens.ofString source).diagnostics, d.isFatal = true
  exit_zero : result.exit = 0 ↔ ∀ d ∈ (Tokens.ofString source).diagnostics, d.isFatal = false
  stdout : result.stdout =
    String.join ((Tokens.ofString source).lexemes.map fun lexeme => entry lexeme ++ "\n")
  in_line : ∀ lexeme ∈ (Tokens.ofString source).lexemes, '\n' ∉ (entry lexeme).toList

variable {source : String} {request : Request} {dumpSymbols colors : Bool} {p : Program}
  {settings : ColorSettings} {noColor : Bool} {file : String}

/-! ## Success -/

theorem mark_mem_styledLine (colors : Bool) (style : Style) (text : String) :
    '✅' ∈ (styledLine colors style ("✅ " ++ text)).toList := by
  rw [styledLine, String.toList_append, Styled.render, String.toList_ofList]
  refine List.mem_append_left _ ?_
  cases colors with
  | false =>
      change '✅' ∈ ("✅ " ++ text).toList ++ []
      rw [List.append_nil, String.toList_append]
      exact List.mem_append_left _ (by decide)
  | true =>
      change '✅' ∈ (style.sequence ++ style.reopen ("✅ " ++ text).toList ++ Style.reset) ++ []
      rw [String.toList_append]
      change '✅' ∈ (style.sequence ++ ('✅' :: style.reopen (' ' :: text.toList)) ++ _) ++ []
      exact List.mem_append_left _ (List.mem_append_left _
        (List.mem_append_right _ List.mem_cons_self))

theorem mark_mem_successLine (settings : ColorSettings) (noColor : Bool) (file : String) :
    '✅' ∈ (successLine settings noColor file).toList := by
  rw [successLine, String.append_assoc]
  exact mark_mem_styledLine _ _ _

/-- A text with the mark of success cannot be found in ASCII. -/
theorem not_infix_of_ascii {success text : String} (hsuccess : '✅' ∈ success.toList)
    (h : Ascii text) : ¬success.toList <:+: text.toList :=
  fun hfound => absurd (h _ (hfound.subset hsuccess)) (by decide)

/-! ## Checks -/

section Parsed

variable
  (h : Program.parse (Tokens.ofString source).lexemes (Tokens.ofString source).eoi = .ok p)
include h

theorem runCheck_of_parse : (runCheck request dumpSymbols colors source).exit =
      (if (Checked.ofProgram source p).hasErrors then 1 else 0) ∧
    (runCheck request dumpSymbols colors source).stdout =
      (if dumpSymbols then p.lexical.scopes.dump else "") ++
        if (Checked.ofProgram source p).hasErrors then ""
        else styledLine colors .green ("✅ " ++ request.file ++ " 无错误") := by
  rw [runCheck, check_of_parse h]
  dsimp only
  cases (Checked.ofProgram source p).hasErrors with
  | true => exact ⟨rfl, String.append_empty.symm⟩
  | false => exact ⟨rfl, rfl⟩

theorem faultless_iff_of_parse :
    Faultless source ↔ (Checked.ofProgram source p).hasErrors = false := by
  rw [← Bool.not_eq_true, Checked.hasErrors, Checked.hasErrors_ofProgram, not_or, not_exists,
    not_not]
  constructor
  · rintro ⟨htokens, p', analysis, hp, hanalysis, herrors⟩
    obtain rfl := Except.ok.inj (hp.symm.trans h)
    obtain rfl := Except.ok.inj (hanalysis.symm.trans p'.analyze_eq_lexical)
    exact ⟨fun d ⟨hd, hfatal⟩ => Bool.false_ne_true ((htokens d hd).symm.trans hfatal), herrors⟩
  · rintro ⟨htokens, herrors⟩
    refine ⟨fun d hd => ?_, p, p.lexical, h, p.analyze_eq_lexical, herrors⟩
    exact Bool.eq_false_iff.mpr fun hfatal => htokens d ⟨hd, hfatal⟩

end Parsed

theorem runCheck_of_parse_error {error : SyntaxError}
    (h : Program.parse (Tokens.ofString source).lexemes (Tokens.ofString source).eoi =
      .error error) : (runCheck request dumpSymbols colors source).exit = 1 ∧
        (runCheck request dumpSymbols colors source).stdout = "" := by
  rw [runCheck, check_of_parse_error h]
  exact ⟨rfl, rfl⟩

theorem ascii_dumped (h : Program.parse (Tokens.ofString source).lexemes
    (Tokens.ofString source).eoi = .ok p) (dumpSymbols : Bool) :
    Ascii (if dumpSymbols then p.lexical.scopes.dump else "") := by
  cases dumpSymbols with
  | false =>
      intro c hc
      cases hc
  | true => exact Program.ascii_dump h

/-- A syntax error leaves nothing on the standard output. -/
theorem Result.OfCheck.of_parse_error {error : SyntaxError} {success : String} {result : Result}
    (h : Program.parse (Tokens.ofString source).lexemes (Tokens.ofString source).eoi =
      .error error) (hexit : result.exit = 1) (hstdout : result.stdout = "")
    (hsuccess : '✅' ∈ success.toList) : result.OfCheck source dumpSymbols success := by
  have hfault : ¬Faultless source := by
    rintro ⟨-, p, -, hp, -⟩
    cases h.symm.trans hp
  have hempty {text : List Char} (hne : text ≠ []) : ¬text <:+: result.stdout.toList := by
    rw [hstdout]
    exact fun hfound => hne (List.infix_nil.mp hfound)
  refine ⟨?_, ?_, fun p hp => ?_, fun _ _ => hstdout, ?_, fun _ => ?_⟩
  · exact iff_of_false (by rw [hexit]; decide) hfault
  · exact iff_of_true hexit hfault
  · cases h.symm.trans hp
  · exact iff_of_false (hempty (List.ne_nil_of_mem hsuccess)) (by rw [hexit]; decide)
  · refine iff_of_false (hempty (by decide)) ?_
    rintro ⟨p, hp⟩
    cases h.symm.trans hp

/-- A program that is read is dumped if it is asked for, with or without errors. -/
theorem Result.OfCheck.of_parse {success : String} {result : Result}
    (h : Program.parse (Tokens.ofString source).lexemes (Tokens.ofString source).eoi = .ok p)
    (hexit : result.exit = if (Checked.ofProgram source p).hasErrors then 1 else 0)
    (hstdout : result.stdout = (if dumpSymbols then p.lexical.scopes.dump else "") ++
      if (Checked.ofProgram source p).hasErrors then "" else success)
    (hsuccess : '✅' ∈ success.toList) : result.OfCheck source dumpSymbols success := by
  have hzero : result.exit = 0 ↔ (Checked.ofProgram source p).hasErrors = false := by
    rw [hexit]
    cases (Checked.ofProgram source p).hasErrors <;> decide
  have hone : result.exit = 1 ↔ ¬(Checked.ofProgram source p).hasErrors = false := by
    rw [hexit]
    cases (Checked.ofProgram source p).hasErrors <;> decide
  refine ⟨?_, ?_, fun p' hp => ?_, fun error herror => ?_, ?_, fun hdump => ?_⟩
  · rw [hzero, faultless_iff_of_parse h]
  · rw [hone, faultless_iff_of_parse h]
  · obtain rfl := Except.ok.inj (h.symm.trans hp)
    refine ⟨_, p.analyze_eq_lexical, ?_⟩
    rw [hstdout, hexit]
    cases (Checked.ofProgram source p).hasErrors <;> rfl
  · cases h.symm.trans herror
  · rw [hstdout, hzero]
    cases (Checked.ofProgram source p).hasErrors with
    | false =>
        refine iff_of_true ?_ rfl
        rw [String.toList_append]
        exact (List.suffix_append _ _).isInfix
    | true =>
        have hempty : Ascii "" := by decide
        refine iff_of_false (not_infix_of_ascii hsuccess ?_) (by decide)
        exact (ascii_dumped h dumpSymbols).append hempty
  · refine iff_of_true ?_ ⟨p, h⟩
    rw [hstdout, if_pos hdump, String.toList_append]
    refine (List.IsPrefix.isInfix ?_).trans (List.prefix_append _ _).isInfix
    change _ <+: (_ ++ _ : String).toList
    rw [String.toList_append]
    exact List.prefix_append _ _

theorem ofCheck_run (source file : String) (settings : ColorSettings)
    (dumpSymbols noColor verbose : Bool) :
    Result.OfCheck source dumpSymbols (successLine settings noColor file)
      (run ⟨.check dumpSymbols, file, noColor, verbose⟩ settings (.ok source)) := by
  change Result.OfCheck _ _ _ (runCheck _ dumpSymbols (settings.enabled && !noColor) source)
  have hsuccess := mark_mem_successLine settings noColor file
  cases hp : Program.parse (Tokens.ofString source).lexemes (Tokens.ofString source).eoi with
  | error error =>
      obtain ⟨hexit, hstdout⟩ := runCheck_of_parse_error hp
      exact .of_parse_error hp hexit hstdout hsuccess
  | ok p =>
      obtain ⟨hexit, hstdout⟩ := runCheck_of_parse hp
      exact .of_parse hp hexit hstdout hsuccess

/-! ## Listings -/

theorem lineFeed_not_mem_entry {lexeme : Lexeme} (h : lexeme ∈ (Tokens.ofString source).lexemes) :
    '\n' ∉ (entry lexeme).toList := by
  have hnumber (n : Nat) : '\n' ∉ (toString n).toList :=
    fun hmem => absurd (isDigit_of_mem_toString hmem) (by decide)
  have htoken : '\n' ∉ lexeme.token.text.toList := by
    obtain ⟨segment, rest, htoken, hfits, -⟩ := Tokens.exists_segment_of_mem h
    have hline := hfits.lineFeed_not_mem htoken
    have hspells := hfits.spells htoken
    generalize lexeme.token = token at hspells ⊢
    cases token with
    | int value =>
        obtain ⟨-, -, rfl⟩ := hspells
        exact hnumber _
    | _ =>
        obtain hspells : segment.text = _ := hspells
        rwa [hspells] at hline
  simp only [entry, Position.text, not_mem_toList_append]
  exact ⟨⟨⟨⟨hnumber _, by decide⟩, hnumber _⟩, by decide⟩, htoken⟩

theorem ofTokens_run (source file : String) (settings : ColorSettings) (noColor verbose : Bool) :
    Result.OfTokens source (run ⟨.tokens, file, noColor, verbose⟩ settings (.ok source)) := by
  have hsink : (Sink.empty.extend (Tokens.ofString source).diagnostics).hasErrors =
      (Tokens.ofString source).diagnostics.any Diagnostic.isFatal := by
    rw [Sink.hasErrors_extend]
    rfl
  have hexit : (run ⟨.tokens, file, noColor, verbose⟩ settings (.ok source)).exit =
      if (Tokens.ofString source).diagnostics.any Diagnostic.isFatal then 1 else 0 := by
    rw [← hsink]
    rfl
  refine ⟨?_, ?_, rfl, fun _ => lineFeed_not_mem_entry⟩
  · rw [hexit, ← List.any_eq_true]
    cases (Tokens.ofString source).diagnostics.any Diagnostic.isFatal <;> decide
  · simp only [hexit, ← Bool.not_eq_true, ← List.any_eq_false]
    cases (Tokens.ofString source).diagnostics.any Diagnostic.isFatal <;> decide

/-! ## Exit statuses -/

/-- Two checks of one text end alike, whatever else they are asked for. -/
theorem Result.OfCheck.exit_eq {dumpSymbols' : Bool} {success success' : String}
    {result result' : Result} (h : result.OfCheck source dumpSymbols success)
    (h' : result'.OfCheck source dumpSymbols' success') : result.exit = result'.exit := by
  by_cases hfault : Faultless source
  · rw [h.exit_zero.mpr hfault, h'.exit_zero.mpr hfault]
  · rw [h.exit_one.mpr hfault, h'.exit_one.mpr hfault]

theorem Result.OfTokens.exit_eq {result result' : Result} (h : result.OfTokens source)
    (h' : result'.OfTokens source) : result.exit = result'.exit := by
  by_cases hfatal : ∃ d ∈ (Tokens.ofString source).diagnostics, d.isFatal = true
  · rw [h.exit_one.mpr hfatal, h'.exit_one.mpr hfatal]
  · have hnone : ∀ d ∈ (Tokens.ofString source).diagnostics, d.isFatal = false :=
      fun d hd => Bool.eq_false_iff.mpr fun hd' => hfatal ⟨d, hd, hd'⟩
    rw [h.exit_zero.mpr hnone, h'.exit_zero.mpr hnone]

/-- The exit statuses of the program.  A check ends with status zero exactly if nothing is wrong
with the text, and with one otherwise; its closing line is on the standard output exactly if the
status is zero, and the dump, if it is asked for, exactly if the tokens are read as a program.  A
listing ends with status one exactly if tokenizing reports something fatal, and lists the tokens in
order in any case.  A text for which a listing ends with one is one for which a check does, and no
option changes a status. -/
theorem exit_statuses (source : String) :
    (∀ file settings dumpSymbols noColor verbose,
      Result.OfCheck source dumpSymbols (successLine settings noColor file)
        (run ⟨.check dumpSymbols, file, noColor, verbose⟩ settings (.ok source))) ∧
    (∀ file settings noColor verbose,
      Result.OfTokens source (run ⟨.tokens, file, noColor, verbose⟩ settings (.ok source))) ∧
    (∀ file file' settings settings' dumpSymbols noColor noColor' verbose verbose',
      (run ⟨.tokens, file, noColor, verbose⟩ settings (.ok source)).exit = 1 →
        (run ⟨.check dumpSymbols, file', noColor', verbose'⟩ settings' (.ok source)).exit = 1) ∧
    (∀ file file' settings settings' dumpSymbols dumpSymbols' noColor noColor' verbose verbose',
      (run ⟨.check dumpSymbols, file, noColor, verbose⟩ settings (.ok source)).exit =
        (run ⟨.check dumpSymbols', file', noColor', verbose'⟩ settings' (.ok source)).exit) ∧
    ∀ file file' settings settings' noColor noColor' verbose verbose',
      (run ⟨.tokens, file, noColor, verbose⟩ settings (.ok source)).exit =
        (run ⟨.tokens, file', noColor', verbose'⟩ settings' (.ok source)).exit := by
  refine ⟨fun file settings => ofCheck_run source file settings,
    fun file settings => ofTokens_run source file settings, ?_, ?_, ?_⟩
  · intro file file' settings settings' dumpSymbols noColor noColor' verbose verbose' hlisted
    obtain ⟨d, hd, hfatal⟩ :=
      (ofTokens_run source file settings noColor verbose).exit_one.mp hlisted
    have hcheck := ofCheck_run source file' settings' dumpSymbols noColor' verbose'
    refine hcheck.exit_one.mpr fun hfaultless => ?_
    exact Bool.false_ne_true ((hfaultless.1 d hd).symm.trans hfatal)
  · intros
    exact (ofCheck_run source _ _ _ _ _).exit_eq (ofCheck_run source _ _ _ _ _)
  · intros
    exact (ofTokens_run source _ _ _ _).exit_eq (ofTokens_run source _ _ _ _)

/-- An illegal character after a program: both commands end with one, and what is before it is
listed. -/
theorem exit_statuses_of_illegal_character :
    (run ⟨.tokens, "a.c", false, false⟩ ⟨none, none, none, true⟩ (.ok "int x; $")).exit = 1 ∧
    (run ⟨.tokens, "a.c", false, false⟩ ⟨none, none, none, true⟩ (.ok "int x; $")).stdout =
      "1:1\tint\n1:5\tx\n1:6\t;\n" ∧
    (run ⟨.check true, "a.c", true, false⟩ ⟨none, none, none, false⟩ (.ok "int x; $")).exit =
      1 := by
  have hlisted : (run ⟨.tokens, "a.c", false, false⟩ ⟨none, none, none, true⟩
      (.ok "int x; $")).exit = 1 := by
    decide +kernel
  refine ⟨hlisted, by decide +kernel, ?_⟩
  exact (exit_statuses "int x; $").2.2.1 "a.c" "a.c" _ _ true false true false false hlisted

end NameCheck.CommandLine
