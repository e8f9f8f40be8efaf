import NameCheck.Token.Tokenize

/-!
# Where lexemes stand

The segments of a text follow one another without a gap, and none of them is empty.  So a lexeme
ends before the next one begins, and no two lexemes begin at one place.
-/

namespace NameCheck

namespace Position

variable {p q r : Position}

instance : LE Position where
  le p q := ¬q < p

instance (p q : Position) : Decidable (p ≤ q) :=
  inferInstanceAs (Decidable ¬q < p)

theorem le_def : p ≤ q ↔ p.line < q.line ∨ (p.line = q.line ∧ p.column ≤ q.column) := by
  change ¬q < p ↔ _
  rw [lt_def]
  omega

theorem le_refl (p : Position) : p ≤ p :=
  lt_irrefl p

theorem le_trans (hpq : p ≤ q) (hqr : q ≤ r) : p ≤ r := by
  rw [le_def] at *
  omega

theorem le_of_lt (h : p < q) : p ≤ q :=
  lt_asymm h

theorem le_total (p q : Position) : p ≤ q ∨ q ≤ p := by
  rw [le_def, le_def]
  omega

theorem lt_of_le_of_ne (h : p ≤ q) (hne : p ≠ q) : p < q :=
  Decidable.byContradiction fun hnot => hne (eq_of_not_lt hnot h)

theorem lt_of_lt_of_le (hpq : p < q) (hqr : q ≤ r) : p < r := by
  rw [lt_def] at *
  rw [le_def] at hqr
  omega

theorem lt_advance (p : Position) (c : Char) : p < p.advance c := by
  rw [advance, lt_def]
  split
  · exact Or.inl (Nat.lt_succ_self p.line)
  · exact Or.inr ⟨rfl, Nat.lt_succ_self p.column⟩

theorem le_after (p : Position) (text : List Char) : p ≤ p.after text := by
  induction text generalizing p with
  | nil => exact le_refl p
  | cons c cs ih =>
      rw [after_cons]
      exact le_trans (le_of_lt (lt_advance p c)) (ih (p.advance c))

/-- Text takes up room. -/
theorem lt_after {text : List Char} (h : text ≠ []) : p < p.after text := by
  cases text with
  | nil => exact absurd rfl h
  | cons c cs =>
      rw [after_cons]
      exact lt_of_lt_of_le (lt_advance p c) (le_after (p.advance c) cs)

end Position

namespace Segment

variable {start : Position} {segments : List Segment} {placed : Segment × Span}

theorem map_fst_place (start : Position) (segments : List Segment) :
    (place start segments).map Prod.fst = segments := by
  induction segments generalizing start with
  | nil => rfl
  | cons segment rest ih => rw [place, List.map_cons, ih]

theorem mem_of_mem_place (h : placed ∈ place start segments) : placed.1 ∈ segments := by
  rw [← map_fst_place start segments]
  exact List.mem_map_of_mem h

theorem start_le_of_mem_place (h : placed ∈ place start segments) : start ≤ placed.2.start := by
  induction segments generalizing start with
  | nil => cases h
  | cons segment rest ih =>
      rw [place, List.mem_cons] at h
      rcases h with rfl | h
      · exact Position.le_refl start
      · exact Position.le_trans (Position.le_after start segment.text) (ih h)

theorem start_lt_stop_of_mem_place (hne : ∀ segment ∈ segments, segment.text ≠ [])
    (h : placed ∈ place start segments) : placed.2.start < placed.2.stop := by
  induction segments generalizing start with
  | nil => cases h
  | cons segment rest ih =>
      rw [place, List.mem_cons] at h
      rcases h with rfl | h
      · exact Position.lt_after (hne segment List.mem_cons_self)
      · exact ih (fun other hother => hne other (List.mem_cons_of_mem _ hother)) h

theorem pairwise_place (start : Position) (segments : List Segment) :
    (place start segments).Pairwise fun a b => a.2.stop ≤ b.2.start := by
  induction segments generalizing start with
  | nil => exact List.Pairwise.nil
  | cons segment rest ih =>
      rw [place, List.pairwise_cons]
      refine ⟨fun placed hplaced => ?_, ih (start.after segment.text)⟩
      exact start_le_of_mem_place hplaced

end Segment

namespace Tokens

theorem exists_placed_of_mem_lexemesOf {placed : List (Segment × Span)} {lexeme : Lexeme}
    (h : lexeme ∈ lexemesOf placed) : ∃ segment, (segment, lexeme.span) ∈ placed := by
  rw [lexemesOf, List.mem_filterMap] at h
  obtain ⟨⟨segment, span⟩, hmem, htoken⟩ := h
  obtain ⟨token, -, rfl⟩ := Option.map_eq_some_iff.mp htoken
  exact ⟨segment, hmem⟩

/-- The tokens of a text, without their places. -/
def tokens (t : Tokens) : List Token :=
  t.lexemes.map Lexeme.token

theorem map_token_lexemesOf (placed : List (Segment × Span)) :
    (lexemesOf placed).map Lexeme.token = (placed.map Prod.fst).filterMap Segment.token? := by
  rw [lexemesOf, List.map_filterMap, List.filterMap_map]
  congr 1
  funext ⟨segment, span⟩
  change (segment.token?.map (⟨·, span⟩)).map Lexeme.token = segment.token?
  cases segment.token? <;> rfl

/-- The tokens of a text are those of the segments that it is cut into. -/
theorem tokens_ofText (text : List Char) :
    (ofText text).tokens = (Segment.cut text).filterMap Segment.token? := by
  rw [tokens, ofText, map_token_lexemesOf, Segment.map_fst_place]

/-- A lexeme ends after it begins. -/
theorem start_lt_stop_of_mem {text : List Char} {lexeme : Lexeme}
    (h : lexeme ∈ (ofText text).lexemes) : lexeme.span.start < lexeme.span.stop := by
  obtain ⟨segment, hplaced⟩ := exists_placed_of_mem_lexemesOf h
  have hne : ∀ segment ∈ Segment.cut text, segment.text ≠ [] :=
    fun _ => Segment.text_ne_nil_of_mem_cut
  exact Segment.start_lt_stop_of_mem_place hne hplaced

/-- A lexeme ends before the next one begins. -/
theorem lexemes_apart (text : List Char) :
    (ofText text).lexemes.Pairwise fun a b => a.span.stop ≤ b.span.start := by
  apply List.pairwise_filterMap.mpr
  apply (Segment.pairwise_place .first (Segment.cut text)).imp
  intro a b hab lexeme hlexeme lexeme' hlexeme'
  obtain ⟨token, -, rfl⟩ := Option.map_eq_some_iff.mp hlexeme
  obtain ⟨token', -, rfl⟩ := Option.map_eq_some_iff.mp hlexeme'
  exact hab

/-- Lexemes come in the order of their places. -/
theorem lexemes_ordered (text : List Char) :
    (ofText text).lexemes.Pairwise fun a b => a.span.start < b.span.start := by
  apply (lexemes_apart text).imp_of_mem
  intro a b ha _ hab
  exact Position.lt_of_lt_of_le (start_lt_stop_of_mem ha) hab

end Tokens

end NameCheck
