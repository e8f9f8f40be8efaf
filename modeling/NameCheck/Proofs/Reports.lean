import NameCheck.Proofs.Check

/-!
# What is reported

Nothing that is reported gets lost, and nothing is added to it.  A check passes on what tokenizing
reported, and adds what the analysis found or the one syntax error.  A sink keeps everything in the
order in which it came, and its flag tells whether something fatal is in it.
-/

namespace NameCheck

/-! ## Sinks -/

/-- Reports the misuses that an analysis has found. -/
def Analysis.report (analysis : Analysis) (sink : Sink) : Sink :=
  sink.extend (analysis.errors.map SemanticError.diagnostic)

namespace Sink

/-- What can be reported to a sink at once. -/
inductive Request where
  | add (d : Diagnostic)
  | extend (ds : List Diagnostic)
  | report (analysis : Analysis)
  | collect (error : CheckError)

/-- The diagnostics of a request, the first one first. -/
def Request.diagnostics : Request → List Diagnostic
  | .add d => [d]
  | .extend ds => ds
  | .report analysis => analysis.errors.map SemanticError.diagnostic
  | .collect error => error.diagnostics

/-- The sink after a request. -/
def serve (sink : Sink) : Request → Sink
  | .add d => sink.add d
  | .extend ds => sink.extend ds
  | .report analysis => analysis.report sink
  | .collect error => error.collect sink

/-- The sink after some requests, one after another, to which nothing was reported before. -/
def after (requests : List Request) : Sink :=
  requests.foldl serve .empty

variable {sink : Sink} {requests : List Request}

theorem serve_eq_extend (request : Request) :
    sink.serve request = sink.extend request.diagnostics := by
  cases request <;> rfl

/-- The flag of a sink tells whether something fatal is in it. -/
def Sound (sink : Sink) : Prop :=
  sink.hasErrors = sink.diagnostics.any Diagnostic.isFatal

theorem Sound.extend (h : sink.Sound) (ds : List Diagnostic) : (sink.extend ds).Sound := by
  rw [Sound, hasErrors_extend, diagnostics_extend, List.any_append, h]

theorem Sound.serve (h : sink.Sound) (request : Request) : (sink.serve request).Sound := by
  rw [serve_eq_extend]
  exact h.extend request.diagnostics

theorem Sound.foldl (h : sink.Sound) : (requests.foldl Sink.serve sink).Sound := by
  induction requests generalizing sink with
  | nil => exact h
  | cons request requests ih => exact ih (h.serve request)

theorem sound_after (requests : List Request) : (after requests).Sound :=
  Sound.foldl rfl

theorem diagnostics_foldl : (requests.foldl serve sink).diagnostics =
    sink.diagnostics ++ requests.flatMap Request.diagnostics := by
  induction requests generalizing sink with
  | nil => exact (List.append_nil _).symm
  | cons request requests ih =>
      rw [List.foldl_cons, ih, serve_eq_extend, diagnostics_extend, List.flatMap_cons,
        List.append_assoc]

theorem diagnostics_after (requests : List Request) :
    (after requests).diagnostics = requests.flatMap Request.diagnostics :=
  diagnostics_foldl

/-- What is not fatal is a warning. -/
theorem errorCount_add_warningCount (sink : Sink) :
    sink.errorCount + sink.warningCount = sink.size := by
  have hwarning (d : Diagnostic) : (d.severity == .warning) = !d.isFatal := by
    rw [Diagnostic.isFatal]
    cases d.severity <;> rfl
  rw [errorCount, warningCount, size, List.length_eq_countP_add_countP Diagnostic.isFatal]
  simp [hwarning]

end Sink

/-! ## Checks -/

variable {source : String} {p : Program} {error : SyntaxError}

theorem SemanticError.any_isFatal (errors : List SemanticError) :
    (errors.map diagnostic).any Diagnostic.isFatal = true ↔ errors ≠ [] := by
  cases errors with
  | nil => simp
  | cons error errors => simp [diagnostic, Diagnostic.fatal, Diagnostic.isFatal]

theorem Checked.sink_ofProgram : (Checked.ofProgram source p).sink =
    Sink.after [.extend (Tokens.ofString source).diagnostics, .report p.lexical] := rfl

theorem Checked.diagnostics_ofProgram : (Checked.ofProgram source p).sink.diagnostics =
    (Tokens.ofString source).diagnostics ++ p.lexical.errors.map SemanticError.diagnostic := by
  rw [sink_ofProgram, Sink.diagnostics_after]
  simp only [List.flatMap_cons, List.flatMap_nil, List.append_nil, Sink.Request.diagnostics]

/-- All that an analysis finds is fatal. -/
theorem Checked.hasErrors_ofProgram : (Checked.ofProgram source p).sink.hasErrors = true ↔
    (∃ d ∈ (Tokens.ofString source).diagnostics, d.isFatal = true) ∨ p.lexical.errors ≠ [] := by
  have hsound : (Checked.ofProgram source p).sink.Sound := by
    rw [sink_ofProgram]
    exact Sink.sound_after _
  rw [hsound, diagnostics_ofProgram, List.any_append, Bool.or_eq_true, List.any_eq_true,
    SemanticError.any_isFatal]

/-- A syntax error is counted with all that was fatal before it. -/
theorem CheckError.message_syntaxErrors (ds : List Diagnostic) (error : SyntaxError) :
    CheckError.message (.syntaxErrors (ds ++ [error.diagnostic])) =
      toString (ds.countP Diagnostic.isFatal + 1) ++ " syntax error(s)" := by
  have hcount : (ds ++ [error.diagnostic]).countP Diagnostic.isFatal =
      ds.countP Diagnostic.isFatal + 1 := by
    rw [List.countP_append]
    rfl
  exact congrArg (fun n : Nat => toString n ++ " syntax error(s)") hcount

/-- Nothing that is reported gets lost or is made up.  If a text is read as a program, the check
succeeds, and its sink holds what tokenizing reported and after it what is found at the sites of the
program.  If not, the check fails with what tokenizing reported and one syntax error.  Every sink
holds what was reported to it in order, knows whether something in it is fatal, and counts each
diagnostic once. -/
theorem check_reports (source : String) :
    (match Program.parse (Tokens.ofString source).lexemes (Tokens.ofString source).eoi with
      | .ok p => ∃ analysis sink, p.analyze = .ok analysis ∧
          check source = .ok ⟨p, analysis, sink⟩ ∧
          analysis.errors = p.sites.flatMap Site.errors ∧
          sink.diagnostics = (Tokens.ofString source).diagnostics ++
            analysis.errors.map SemanticError.diagnostic ∧
          (sink.hasErrors = true ↔
            (∃ d ∈ (Tokens.ofString source).diagnostics, d.isFatal = true) ∨
              analysis.errors ≠ [])
      | .error error => ∃ ds last, ds = (Tokens.ofString source).diagnostics ++ [last] ∧
          last = error.diagnostic ∧ last.message = "syntax error" ∧ last.isFatal = true ∧
          check source = .error (.syntaxErrors ds) ∧
          CheckError.message (.syntaxErrors ds) =
            toString ((Tokens.ofString source).diagnostics.countP Diagnostic.isFatal + 1) ++
              " syntax error(s)" ∧
          ∀ sink, (CheckError.collect (.syntaxErrors ds) sink).diagnostics =
            sink.diagnostics ++ ds) ∧
    ∀ requests, (Sink.after requests).diagnostics = requests.flatMap Sink.Request.diagnostics ∧
      ((Sink.after requests).hasErrors = true ↔
        ∃ d ∈ (Sink.after requests).diagnostics, d.isFatal = true) ∧
      (Sink.after requests).errorCount + (Sink.after requests).warningCount =
        (Sink.after requests).size := by
  constructor
  · cases hp : Program.parse (Tokens.ofString source).lexemes (Tokens.ofString source).eoi with
    | ok p =>
        have hsites : p.lexical.errors = p.sites.flatMap Site.errors := rfl
        exact ⟨_, _, p.analyze_eq_lexical, check_of_parse hp, hsites,
          Checked.diagnostics_ofProgram, Checked.hasErrors_ofProgram⟩
    | error error =>
        refine ⟨_, _, rfl, rfl, rfl, rfl, check_of_parse_error hp, ?_, fun sink => ?_⟩
        · exact CheckError.message_syntaxErrors _ error
        · exact Sink.diagnostics_extend sink _
  · intro requests
    refine ⟨Sink.diagnostics_after requests, ?_, Sink.errorCount_add_warningCount _⟩
    rw [Sink.sound_after, List.any_eq_true]

end NameCheck
