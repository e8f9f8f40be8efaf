import Mathlib.Data.List.Sort
import NameCheck.Grammar.SyntaxError

/-!
# What would have been accepted

The tokens that would have been accepted at a syntax error are a set: they are found in no
particular order, and some of them may be written alike.  The diagnostic of the error lists their
texts.  As it has each text once and in the order of the bytes, there is only one such list.
-/

namespace NameCheck.SyntaxError

variable {text : String} {texts others : List String} {expected order : List (Option Token)}

/-! ## Repetitions -/

theorem mem_dropRepeats : text ∈ dropRepeats texts ↔ text ∈ texts := by
  induction texts with
  | nil => rfl
  | cons first rest ih =>
      rw [dropRepeats, List.mem_cons, ← ih]
      split
      · rename_i hnil
        rw [hnil, List.mem_singleton]
        simp only [List.not_mem_nil, or_false]
      · rename_i second rest' hcons
        rw [hcons]
        split
        · rename_i heq
          rw [heq, List.mem_cons]
          exact ⟨Or.inr, fun h => h.elim Or.inl id⟩
        · exact List.mem_cons

/-- In texts that are in order the repetitions stand side by side, so that none of them is left. -/
theorem pairwise_dropRepeats (h : texts.Pairwise fun s t => Text.byteLe s t = true) :
    (dropRepeats texts).Pairwise fun s t => Text.bytes s < Text.bytes t := by
  induction texts with
  | nil => exact .nil
  | cons first rest ih =>
      obtain ⟨hfirst, hrest⟩ := List.pairwise_cons.mp h
      have hordered := ih hrest
      have hle : ∀ text ∈ dropRepeats rest, Text.byteLe first text = true := fun text htext =>
        hfirst text (mem_dropRepeats.mp htext)
      rw [dropRepeats]
      split
      · exact List.pairwise_singleton _ _
      · rename_i second rest' hcons
        rw [hcons] at hordered hle
        -- the first text is equal to the second one or before it, and so before all that follow
        split
        · exact hordered
        · rename_i hne
          have hlt : Text.bytes first < Text.bytes second :=
            Text.bytes_lt_of_byteLe (hle second List.mem_cons_self) hne
          refine List.pairwise_cons.mpr ⟨fun text htext => ?_, hordered⟩
          rcases List.mem_cons.mp htext with rfl | htext
          · exact hlt
          · exact List.lt_trans hlt ((List.pairwise_cons.mp hordered).1 text htext)

/-! ## Listings -/

/-- A list has the texts of some accepted tokens, each between back quotes, and of the end of the
input if it is accepted; they strictly increase in the order of their bytes. -/
structure Lists (expected : List (Option Token)) (texts : List String) : Prop where
  mem_iff : ∀ text, text ∈ texts ↔
    (∃ token, some token ∈ expected ∧ text = "`" ++ token.text ++ "`") ∨
      none ∈ expected ∧ text = "end of input"
  ordered : texts.Pairwise fun s t => Text.bytes s < Text.bytes t

theorem mem_map_describe : text ∈ expected.map describe ↔
    (∃ token, some token ∈ expected ∧ text = "`" ++ token.text ++ "`") ∨
      none ∈ expected ∧ text = "end of input" := by
  rw [List.mem_map, Option.exists, or_comm]
  simp only [describe, eq_comm]

theorem lists_expectedTexts (expected : List (Option Token)) :
    Lists expected (expectedTexts expected) where
  mem_iff text := by
    rw [expectedTexts, mem_dropRepeats, List.mem_mergeSort, mem_map_describe]
  ordered := by
    refine pairwise_dropRepeats (List.pairwise_mergeSort ?_ ?_ _)
    · exact fun s t u => Text.byteLe_trans
    · exact Text.byteLe_total

theorem Lists.mem_iff_mem_map (h : Lists expected texts) :
    text ∈ texts ↔ text ∈ expected.map describe :=
  (h.mem_iff text).trans mem_map_describe.symm

/-- Tokens that are written alike are listed alike. -/
theorem Lists.eq_of_texts (h : Lists expected texts) (h' : Lists order others)
    (hsame : ∀ text, text ∈ order.map describe ↔ text ∈ expected.map describe) :
    others = texts := by
  have : Std.Asymm fun s t : String => Text.bytes s < Text.bytes t := ⟨fun _ _ => List.lt_asymm⟩
  refine h'.ordered.eq_of_mem_iff h.ordered fun text => ?_
  rw [h'.mem_iff_mem_map, h.mem_iff_mem_map, hsame]

theorem Lists.count_eq_one (h : Lists expected texts) (htext : text ∈ texts) :
    texts.count text = 1 := by
  refine List.count_eq_one_of_mem (h.ordered.imp fun {s t} hlt => ?_) htext
  rintro rfl
  exact List.lt_irrefl _ hlt

theorem Lists.eq_nil_iff (h : Lists expected texts) : texts = [] ↔ expected = [] := by
  rw [← List.map_eq_nil_iff (f := describe), List.eq_nil_iff_forall_not_mem,
    List.eq_nil_iff_forall_not_mem]
  simp only [h.mem_iff_mem_map]

/-! ## The diagnostic -/

variable {error : SyntaxError}

/-- There is one listing of what would have been accepted, and the note has it. -/
theorem Lists.expectedNotes_eq (h : Lists error.expected texts) :
    error.expectedNotes =
      if error.expected = [] then [] else ["expected one of " ++ ", ".intercalate texts] := by
  have hlisted : expectedTexts error.expected = texts :=
    h.eq_of_texts (lists_expectedTexts error.expected) fun _ => Iff.rfl
  rw [expectedNotes, hlisted]
  split
  · rw [if_pos (h.eq_nil_iff.mp rfl)]
  · rename_i hne
    rw [if_neg fun hnil => hne (h.eq_nil_iff.mpr hnil)]

/-- The diagnostic depends on how the accepted tokens are written alone. -/
theorem diagnostic_eq_of_texts
    (h : ∀ text, text ∈ order.map describe ↔ text ∈ error.expected.map describe) :
    { error with expected := order }.diagnostic = error.diagnostic := by
  have hlisted : expectedTexts order = expectedTexts error.expected :=
    (lists_expectedTexts error.expected).eq_of_texts (lists_expectedTexts order) h
  have hnotes : { error with expected := order }.expectedNotes = error.expectedNotes := by
    rw [expectedNotes, expectedNotes, hlisted]
  exact congrArg (fun notes => Diagnostic.fatal "syntax error" error.span.start
    (error.reasonNote :: notes)) hnotes

/-- The diagnostic of a syntax error does not depend on the order in which the accepted tokens are
found.  Its last note lists the text of each of them, or the end of the input, once and in the
order of the bytes; there is one such list.  Tokens that are written alike are listed as one, and
there is no such note exactly if nothing would have been accepted. -/
theorem diagnostic_canonical (error : SyntaxError) :
    (∃ texts, Lists error.expected texts ∧ (∀ other, Lists error.expected other → other = texts) ∧
      (∀ text ∈ texts, texts.count text = 1) ∧
      error.diagnostic = .fatal "syntax error" error.span.start (error.reasonNote ::
        if error.expected = [] then [] else ["expected one of " ++ ", ".intercalate texts])) ∧
    (error.diagnostic.notes = [error.reasonNote] ↔ error.expected = []) ∧
    (∀ order, (∀ item, item ∈ order ↔ item ∈ error.expected) →
      { error with expected := order }.diagnostic = error.diagnostic) ∧
    ∀ token twin : Token, some token ∈ error.expected → twin.text = token.text →
      { error with expected := some twin :: error.expected }.diagnostic = error.diagnostic := by
  have hlists := lists_expectedTexts error.expected
  refine ⟨⟨_, hlists, fun other hother => ?_, fun text => hlists.count_eq_one, ?_⟩, ?_,
    fun order horder => ?_, fun token twin htoken htwin => ?_⟩
  · exact hlists.eq_of_texts hother fun _ => Iff.rfl
  · rw [diagnostic, hlists.expectedNotes_eq]
  · change error.reasonNote :: error.expectedNotes = [error.reasonNote] ↔ error.expected = []
    rw [hlists.expectedNotes_eq]
    split <;> simp [*]
  · refine diagnostic_eq_of_texts fun text => ?_
    simp only [List.mem_map, horder]
  · have hlisted : describe (some twin) ∈ error.expected.map describe := by
      rw [describe, htwin]
      exact List.mem_map_of_mem htoken
    refine diagnostic_eq_of_texts fun text => ?_
    rw [List.map_cons, List.mem_cons]
    exact ⟨fun h => h.elim (fun heq => heq ▸ hlisted) id, Or.inr⟩

/-- A word and a name that is written like it are listed as one, in whichever order the accepted
tokens are found. -/
theorem diagnostic_canonical_of_twins :
    let error (expected : List (Option Token)) : SyntaxError :=
      ⟨.unexpected, ⟨⟨1, 4⟩, ⟨1, 5⟩⟩, some (.sign .semicolon), expected⟩
    let accepted : List (Option Token) := [some (.keyword .int_), none, some (.sign .comma)]
    let moved : List (Option Token) := [some (.sign .comma), some (.keyword .int_), none]
    let listed : Diagnostic := .fatal "syntax error" (some ⟨1, 4⟩)
      ["unexpected `;`", "expected one of `,`, `int`, end of input"]
    (error accepted).diagnostic = listed ∧ (error moved).diagnostic = listed ∧
      (error (some (.name "int") :: accepted)).diagnostic = listed := by
  intro error accepted moved listed
  have hperm : ["`,`", "`int`", "end of input"].Perm (accepted.map describe) := by decide
  have hmoved : moved.Perm accepted := by decide
  have hlists : Lists accepted ["`,`", "`int`", "end of input"] :=
    ⟨fun text => hperm.mem_iff.trans mem_map_describe, by decide +kernel⟩
  obtain ⟨⟨texts, -, hunique, -, hdiagnostic⟩, -, horder, htwins⟩ :=
    diagnostic_canonical (error accepted)
  have hlisted : (error accepted).diagnostic = listed := by
    rw [hdiagnostic, ← hunique _ hlists]
    decide +kernel
  refine ⟨hlisted, (horder moved fun item => hmoved.mem_iff).trans hlisted, ?_⟩
  exact (htwins (.keyword .int_) (.name "int") List.mem_cons_self rfl).trans hlisted

end NameCheck.SyntaxError
