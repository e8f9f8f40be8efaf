import NameCheck.Proofs.Source.Lines
import NameCheck.Proofs.Token.Lossless

/-!
# What stands at a position

The positions of segments and lexemes lead back to the text: at the byte offset of the start of a
span stands the piece of text that the span was given for.
-/

namespace NameCheck

open Segment

/-- A position points at `rest` in a text: `rest` is what is left of the text at the byte offset of
the position, and the offset leads back to the position. -/
structure Position.PointsAt (p : Position) (text rest : List Char) : Prop where
  stands : ∃ before, text = before ++ rest ∧
    (LineIndex.ofText text).offset p = Text.utf8Length before
  exact : (LineIndex.ofText text).position ((LineIndex.ofText text).offset p) = p

theorem Position.pointsAt_after (before rest : List Char) :
    (first.after before).PointsAt (before ++ rest) rest where
  stands := ⟨before, rfl, LineIndex.offset_after before rest⟩
  exact := by rw [LineIndex.offset_after, LineIndex.position_utf8Length]

/-- A position that points at a rest is the place after what stands before the rest. -/
theorem Position.PointsAt.exists_before {p : Position} {text rest : List Char}
    (h : p.PointsAt text rest) :
    ∃ before, text = before ++ rest ∧ p = first.after before := by
  obtain ⟨before, rfl, hoffset⟩ := h.stands
  refine ⟨before, rfl, ?_⟩
  rw [← h.exact, hoffset, LineIndex.position_utf8Length]

/-- A piece of text spells a token: it is the text of the token, or for a number it is digits, and
their value is the number unless it is beyond `maxInt`, which then is the number. -/
def Token.Spells : Token → List Char → Prop
  | .int value, piece =>
    piece ≠ [] ∧ (∀ c ∈ piece, c.isDigit = true) ∧ value = min (decimal piece) maxInt
  | token, piece => piece = token.text.toList

theorem Pattern.digits_of_mem_int {text : List Char} (h : text ∈ Pattern.int.language) :
    text ≠ [] ∧ ∀ c ∈ text, c.isDigit = true := by
  obtain ⟨c, cs, rfl⟩ := exists_cons h
  exact ⟨List.cons_ne_nil c cs, List.forall_mem_cons.mpr (cons_mem_run.mp h)⟩

/-! ## Segments -/

namespace Segment

variable {segment : Segment} {text rest : List Char} {token : Token}

/-- Each segment of a text stands after those before it, and is the right one there. -/
theorem Cuts.exists_append {before later : List Segment}
    (h : Cuts text (before ++ segment :: later)) :
    ∃ rest, text = before.flatMap Segment.text ++ (segment.text ++ rest) ∧ segment.Fits rest := by
  induction before generalizing text with
  | nil =>
      obtain ⟨rest, rfl, hfits, -⟩ := h.exists_rest
      exact ⟨rest, rfl, hfits⟩
  | cons first before ih =>
      obtain ⟨more, rfl, -, hmore⟩ := h.exists_rest
      obtain ⟨rest, rfl, hfits⟩ := ih hmore
      exact ⟨rest, (List.append_assoc _ _ _).symm, hfits⟩

/-- A placed segment stands where its span begins, and fills its span. -/
theorem pointsAt_of_mem_place {piece : Segment × Span} (h : piece ∈ place .first (cut text)) :
    ∃ rest, piece.2.start.PointsAt text (piece.1.text ++ rest) ∧ piece.1.Fits rest ∧
      piece.2.stop = piece.2.start.after piece.1.text := by
  obtain ⟨before, later, hplaced⟩ := List.append_of_mem h
  obtain ⟨hstart, hstop⟩ := span_of_place hplaced
  have hcuts : Cuts text (before.map Prod.fst ++ piece.1 :: later.map Prod.fst) := by
    have hcut := cuts_cut text
    rwa [← map_fst_place .first (cut text), hplaced, List.map_append, List.map_cons] at hcut
  obtain ⟨rest, htext, hfits⟩ := hcuts.exists_append
  refine ⟨rest, ?_, hfits, hstop⟩
  rw [hstart, htext]
  exact Position.pointsAt_after _ _

/-- A rejected string literal begins with its opening quote. -/
theorem Fits.exists_quote {fault : StringFault} (h : segment.Fits rest)
    (hkind : segment.kind = .rejected fault) : ∃ tail, segment.text = '"' :: tail := by
  cases h with
  | matched hmatches hmeans =>
      obtain rfl : _ = Kind.rejected fault := hkind
      have hmem := hmatches.mem
      cases hmeans with
      | badEscape | unterminated | unterminatedBadEscape =>
          obtain ⟨tail, -, htext⟩ := mem_singleton_mul.mp hmem
          exact ⟨tail, htext⟩
  | illegal => cases hkind

/-- A number that is too large is all the digits that there are. -/
theorem Fits.digits (h : segment.Fits rest) (hkind : segment.kind = .hugeInt) :
    (∀ c ∈ segment.text, c.isDigit = true) ∧ (∀ c ∈ rest.head?, c.isDigit = false) ∧
      maxInt < decimal segment.text := by
  cases h with
  | matched hmatches hmeans =>
      obtain rfl : _ = Kind.hugeInt := hkind
      cases hmeans with
      | @hugeInt text hlt =>
          obtain ⟨d, ds, rfl⟩ := Pattern.exists_cons hmatches.mem
          obtain ⟨hd, hds⟩ := cons_mem_run.mp hmatches.mem
          refine ⟨List.forall_mem_cons.mpr ⟨hd, hds⟩, fun c hc => ?_, hlt⟩
          obtain ⟨more, rfl⟩ := List.head?_eq_some_iff.mp hc
          rw [Bool.eq_false_iff]
          intro hdigit
          -- one more digit would have belonged to the number
          have hdsc : ∀ e ∈ ds ++ [c], e.isDigit = true :=
            List.forall_mem_append.mpr ⟨hds, List.forall_mem_singleton.mpr hdigit⟩
          have hmem : d :: (ds ++ [c]) ∈ Pattern.int.language := cons_mem_run.mpr ⟨hd, hdsc⟩
          have hprefix : d :: (ds ++ [c]) <+: d :: ds ++ c :: more := ⟨more, by simp⟩
          have hlength := hmatches.longest .int _ hmem hprefix
          simp only [List.length_cons, List.length_append, List.length_nil] at hlength
          omega
  | illegal => cases hkind

/-- A segment that has a token spells it. -/
theorem Fits.spells (h : segment.Fits rest) (htoken : segment.token? = some token) :
    token.Spells segment.text := by
  cases h with
  | illegal => cases htoken
  | matched hmatches hmeans =>
      cases hmeans with
      | keyword | sign =>
          obtain rfl := Option.some.inj htoken
          exact hmatches.mem
      | name | str =>
          obtain rfl := Option.some.inj htoken
          exact String.toList_ofList.symm
      | int hle =>
          obtain rfl := Option.some.inj htoken
          obtain ⟨hne, hdigits⟩ := Pattern.digits_of_mem_int hmatches.mem
          refine ⟨hne, hdigits, ?_⟩
          exact congrArg Int.ofNat (Nat.min_eq_left hle).symm
      | hugeInt hlt =>
          obtain rfl := Option.some.inj htoken
          obtain ⟨hne, hdigits⟩ := Pattern.digits_of_mem_int hmatches.mem
          refine ⟨hne, hdigits, ?_⟩
          exact congrArg Int.ofNat (Nat.min_eq_right (Nat.le_of_lt hlt)).symm
      | _ => cases htoken

end Segment

/-! ## Lexemes -/

namespace Tokens

variable {text : List Char} {lexeme : Lexeme}

/-- At the start of a lexeme stands a segment that has its token, and fills its span. -/
theorem exists_segment_of_mem (h : lexeme ∈ (ofText text).lexemes) :
    ∃ (segment : Segment) (rest : List Char), segment.token? = some lexeme.token ∧
      segment.Fits rest ∧ lexeme.span.start.PointsAt text (segment.text ++ rest) ∧
      lexeme.span.stop = lexeme.span.start.after segment.text := by
  obtain ⟨⟨segment, span⟩, hplaced, hlexeme⟩ := List.mem_filterMap.mp h
  obtain ⟨token, htoken, rfl⟩ := Option.map_eq_some_iff.mp hlexeme
  obtain ⟨rest, hpoints, hfits, hstop⟩ := pointsAt_of_mem_place hplaced
  exact ⟨segment, rest, htoken, hfits, hpoints, hstop⟩

/-- Where a name is read, the name stands. -/
theorem pointsAt_of_name {name : String} (h : lexeme ∈ (ofText text).lexemes)
    (htoken : lexeme.token = .name name) :
    lexeme.span.stop = lexeme.span.start.after name.toList ∧
      ∃ rest, lexeme.span.start.PointsAt text (name.toList ++ rest) := by
  obtain ⟨segment, rest, hsegment, hfits, hpoints, hstop⟩ := exists_segment_of_mem h
  rw [htoken] at hsegment
  have htext : segment.text = name.toList := hfits.spells hsegment
  rw [htext] at hpoints hstop
  exact ⟨hstop, rest, hpoints⟩

/-- The end of what a text yields is the end of the text. -/
theorem pointsAt_finish (text : List Char) : (ofText text).finish.PointsAt text [] := by
  have hpoints := Position.pointsAt_after text []
  rwa [List.append_nil] at hpoints

end Tokens

end NameCheck
