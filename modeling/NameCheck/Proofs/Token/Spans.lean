import NameCheck.Proofs.Token.Pieces

/-!
# Spans are read back

The span of a lexeme leads back to the piece of the text that the lexeme was scanned from.  The
piece stands between the byte offsets of the two ends of the span, is as long as the columns say,
and is written as the token is.
-/

namespace NameCheck

open Segment

/-! ## Slices -/

namespace Text

/-- The characters between two byte offsets; none when the offsets are not in order, or one of them
is not on the boundary of a character. -/
def slice? (start stop : Nat) (text : List Char) : Option (List Char) :=
  if start ≤ stop then
    (takeBytes? start text).bind fun before =>
      takeBytes? (stop - start) (text.drop before.length)
  else none

theorem slice?_append (before piece rest : List Char) :
    slice? (utf8Length before) (utf8Length (before ++ piece)) (before ++ (piece ++ rest)) =
      some piece := by
  rw [slice?, utf8Length_append, if_pos (Nat.le_add_right _ _), takeBytes?_append,
    Option.bind_some, List.drop_left, Nat.add_sub_cancel_left, takeBytes?_append]

/-- No slice begins inside a character. -/
example : slice? 1 2 ['é', 'x'] = none := by
  decide

end Text

/-! ## Tokens stay in their lines -/

namespace Pattern

variable {text : List Char}

theorem lineFeed_not_mem_int (h : text ∈ int.language) : '\n' ∉ text :=
  fun hmem => absurd ((digits_of_mem_int h).2 '\n' hmem) (by decide)

theorem lineFeed_not_mem_name (h : text ∈ name.language) : '\n' ∉ text := by
  obtain ⟨c, cs, rfl⟩ := exists_cons h
  obtain ⟨hc, hcs⟩ := cons_mem_run.mp h
  intro hmem
  rcases List.mem_cons.mp hmem with rfl | hmem
  · exact absurd hc (by decide)
  · exact absurd (hcs '\n' hmem) (by decide)

theorem lineFeed_not_mem_tail (h : Tail isInLine quote text) : '\n' ∉ text := by
  induction h with
  | finish h =>
      rw [mem_quote.mp h]
      decide
  | plain hc _ ih => exact List.not_mem_cons_of_ne_of_not_mem (isPlain_iff.mp hc).2.2.symm ih
  | pair hc _ ih =>
      refine List.not_mem_cons_of_ne_of_not_mem (by decide) ?_
      exact List.not_mem_cons_of_ne_of_not_mem (isInLine_iff.mp hc).symm ih

end Pattern

namespace Segment

variable {segment : Segment} {rest : List Char} {token : Token}

/-- A segment that has a token stays in its line. -/
theorem Fits.lineFeed_not_mem (h : segment.Fits rest) (htoken : segment.token? = some token) :
    '\n' ∉ segment.text := by
  cases h with
  | illegal => cases htoken
  | matched hmatches hmeans =>
      cases hmeans with
      | @keyword text w =>
          have hname := w.text_mem_name
          rw [← Pattern.mem_keyword.mp hmatches.mem] at hname
          exact Pattern.lineFeed_not_mem_name hname
      | @sign text s =>
          rw [Pattern.mem_sign.mp hmatches.mem]
          exact s.lineFeed_not_mem_text
      | name => exact Pattern.lineFeed_not_mem_name hmatches.mem
      | int | hugeInt => exact Pattern.lineFeed_not_mem_int hmatches.mem
      | str hclosed =>
          obtain ⟨tail, -, rfl⟩ := mem_singleton_mul.mp hclosed
          have htail := Pattern.lineFeed_not_mem_tail (Pattern.mem_closed.mp hclosed)
          exact List.not_mem_cons_of_ne_of_not_mem (by decide) htail
      | _ => cases htoken

end Segment

/-! ## Lexemes -/

/-- A lexeme is read back from a text as a segment: it has the token of the segment, its span is in
one line and as wide as the segment has characters, and the segment is what stands between the byte
offsets of the ends of the span, and spells the token. -/
structure Lexeme.ReadsBack (text : List Char) (lexeme : Lexeme) (segment : Segment) : Prop where
  token : segment.token? = some lexeme.token
  nonempty : lexeme.span.start < lexeme.span.stop
  line : lexeme.span.stop.line = lexeme.span.start.line
  width : lexeme.span.stop.column = lexeme.span.start.column + segment.text.length
  slice : Text.slice? ((LineIndex.ofText text).offset lexeme.span.start)
    ((LineIndex.ofText text).offset lexeme.span.stop) text = some segment.text
  spells : lexeme.token.Spells segment.text

namespace Segment

variable {text : List Char} {piece : Segment × Span} {token : Token}

/-- Between the byte offsets of the ends of a span stands the segment that fills it. -/
theorem slice?_of_mem_place (h : piece ∈ place .first (cut text)) :
    Text.slice? ((LineIndex.ofText text).offset piece.2.start)
      ((LineIndex.ofText text).offset piece.2.stop) text = some piece.1.text := by
  obtain ⟨rest, hpoints, -, hstop⟩ := pointsAt_of_mem_place h
  obtain ⟨before, rfl, hstart⟩ := hpoints.exists_before
  rw [hstart] at hstop
  have hoffset := LineIndex.offset_after before (piece.1.text ++ rest)
  have hoffset' := LineIndex.offset_after (before ++ piece.1.text) rest
  rw [List.append_assoc, Position.after_append, ← hstop] at hoffset'
  rw [hstart, hoffset, hoffset', Text.slice?_append]

theorem readsBack_of_mem_place (h : piece ∈ place .first (cut text))
    (htoken : piece.1.token? = some token) :
    Lexeme.ReadsBack text ⟨token, piece.2⟩ piece.1 := by
  obtain ⟨rest, -, hfits, hstop⟩ := pointsAt_of_mem_place h
  have hne : piece.1.text ≠ [] := text_ne_nil_of_mem_cut (mem_of_mem_place h)
  have hlt : piece.2.start < piece.2.stop := by
    rw [hstop]
    exact Position.lt_after hne
  rw [Position.after_line (hfits.lineFeed_not_mem htoken)] at hstop
  have hline : piece.2.stop.line = piece.2.start.line := by rw [hstop]
  have hwidth : piece.2.stop.column = piece.2.start.column + piece.1.text.length := by rw [hstop]
  exact ⟨htoken, hlt, hline, hwidth, slice?_of_mem_place h, hfits.spells htoken⟩

end Segment

namespace Tokens

variable {R : Lexeme → Segment → Prop}

theorem lexemesOf_cons (segment : Segment) (span : Span) (placed : List (Segment × Span)) :
    lexemesOf ((segment, span) :: placed) =
      (segment.token?.map (⟨·, span⟩)).toList ++ lexemesOf placed := by
  simp only [lexemesOf, List.filterMap_cons]
  cases segment.token? <;> rfl

/-- Lexemes go one by one with the segments that have a token. -/
theorem forall₂_lexemesOf {placed : List (Segment × Span)}
    (h : ∀ piece ∈ placed, ∀ token, piece.1.token? = some token → R ⟨token, piece.2⟩ piece.1) :
    List.Forall₂ R (lexemesOf placed)
      ((placed.map Prod.fst).filter fun segment => segment.token?.isSome) := by
  induction placed with
  | nil => exact .nil
  | cons piece placed ih =>
      obtain ⟨segment, span⟩ := piece
      obtain ⟨hpiece, hplaced⟩ := List.forall_mem_cons.mp h
      rw [lexemesOf_cons, List.map_cons, List.filter_cons]
      cases htoken : segment.token? with
      | none => exact ih hplaced
      | some token => exact .cons (hpiece token htoken) (ih hplaced)

/-- No lexeme reaches beyond the end of the text. -/
theorem stop_le_finish {text : List Char} {lexeme : Lexeme} (h : lexeme ∈ (ofText text).lexemes) :
    lexeme.span.stop ≤ (ofText text).finish := by
  obtain ⟨segment, rest, -, -, hpoints, hstop⟩ := exists_segment_of_mem h
  obtain ⟨before, rfl, hstart⟩ := hpoints.exists_before
  rw [hstop, hstart, ofText, Position.after_append, Position.after_append]
  exact Position.le_after _ rest

/-- The spans of lexemes are read back.  Spans come one after the other and before the end of
the text, and the lexemes are read back, one by one, as the segments of the text that have a
token. -/
theorem spans_read_back (source : String) :
    let tokens := ofString source
    (tokens.lexemes.map Lexeme.span ++ [tokens.eoi]).Pairwise (fun a b => a.stop ≤ b.start) ∧
      List.Forall₂ (Lexeme.ReadsBack source.toList) tokens.lexemes
        ((cut source.toList).filter fun segment => segment.token?.isSome) := by
  intro tokens
  constructor
  · refine List.pairwise_append.mpr ⟨?_, List.pairwise_singleton _ _, ?_⟩
    · exact List.pairwise_map.mpr (lexemes_apart source.toList)
    · intro span hspan eoi heoi
      obtain ⟨lexeme, hlexeme, rfl⟩ := List.mem_map.mp hspan
      rw [List.mem_singleton.mp heoi]
      exact stop_le_finish hlexeme
  · rw [← map_fst_place .first (cut source.toList)]
    exact forall₂_lexemesOf fun piece hpiece token => readsBack_of_mem_place hpiece

end Tokens

end NameCheck
