import NameCheck.Proofs.Token.Longest
import NameCheck.Proofs.Token.Places

/-!
# Tokenizing loses nothing

A text is laid out as its segments, each where those before it end.  What a text yields accounts
for every one of them: the lexemes are those of the segments that have a token, and what is
reported is one fault for each segment that is dropped and one warning for each number that is too
large, in the order of the text.
-/

namespace NameCheck

open Segment

/-- Segments with their spans are the layout of a text: they are the only ones that longest matches
allow, they make up the text, none of them is empty, and each begins where those before it end. -/
structure LaysOut (text : List Char) (placed : List (Segment × Span)) : Prop where
  cuts : ∀ segments, Cuts text segments ↔ segments = placed.map Prod.fst
  whole : (placed.map Prod.fst).flatMap Segment.text = text
  nonempty : ∀ piece ∈ placed, piece.1.text ≠ []
  spans : ∀ before piece later, placed = before ++ piece :: later →
    piece.2.start = Position.first.after ((before.map Prod.fst).flatMap Segment.text) ∧
      piece.2.stop = piece.2.start.after piece.1.text

namespace Segment

/-- Why a segment is dropped, if it is dropped and is neither blank nor a comment. -/
def fault? (segment : Segment) : Option String :=
  match segment.kind with
  | .rejected fault => some fault.message
  | .illegal => some ("illegal character ignored: " ++ String.ofList segment.text)
  | _ => none

end Segment

/-- What a text yields is what its layout calls for. -/
structure Tokens.Accounts (tokens : Tokens) (placed : List (Segment × Span)) : Prop where
  lexemes : tokens.lexemes = placed.filterMap fun piece =>
    piece.1.token?.map fun token => ⟨token, piece.2⟩
  faults : tokens.diagnostics.filter Diagnostic.isFatal = placed.filterMap fun piece =>
    piece.1.fault?.map fun message => .fatal message piece.2.start []
  warnings : (tokens.diagnostics.filter fun d => !d.isFatal) =
    (placed.filter fun piece => piece.1.kind = .hugeInt).map fun piece =>
      .warning "integer literal too large; using max value" piece.2.start
  illegal : ∀ piece ∈ placed, piece.1.kind = .illegal →
    ∃ c, piece.1.text = [c] ∧
      piece.1.fault? = some ("illegal character ignored: " ++ String.singleton c)
  increasing : ∃ positions : List Position,
    tokens.diagnostics.map Diagnostic.position = positions.map some ∧
      positions.Pairwise (· < ·)

/-! ## The layout -/

namespace Segment

variable {start : Position} {text : List Char} {segment : Segment} {segments : List Segment}

/-- A placed segment begins where those before it end. -/
theorem span_of_place {before later : List (Segment × Span)} {piece : Segment × Span}
    (h : place start segments = before ++ piece :: later) :
    piece.2.start = start.after ((before.map Prod.fst).flatMap Segment.text) ∧
      piece.2.stop = piece.2.start.after piece.1.text := by
  induction before generalizing start segments with
  | nil =>
      cases segments with
      | nil => cases h
      | cons segment rest =>
          obtain ⟨rfl, -⟩ := List.cons.inj h
          exact ⟨rfl, rfl⟩
  | cons first before ih =>
      cases segments with
      | nil => cases h
      | cons segment rest =>
          obtain ⟨rfl, hrest⟩ := List.cons.inj h
          obtain ⟨hstart, hstop⟩ := ih hrest
          refine ⟨?_, hstop⟩
          rw [hstart, List.map_cons, List.flatMap_cons, Position.after_append]

theorem Cuts.exists_fits (h : Cuts text segments) (hmem : segment ∈ segments) :
    ∃ rest, segment.Fits rest := by
  induction h with
  | nil => cases hmem
  | cons hfits h ih =>
      rcases List.mem_cons.mp hmem with rfl | hmem
      · exact ⟨_, hfits⟩
      · exact ih hmem

/-- An illegal segment is one character. -/
theorem Fits.eq_singleton {rest : List Char} (h : segment.Fits rest)
    (hkind : segment.kind = .illegal) : ∃ c, segment.text = [c] := by
  cases h with
  | matched hmatches hmeans =>
      obtain rfl : _ = Kind.illegal := hkind
      cases hmeans
  | @illegal c h => exact ⟨c, rfl⟩

theorem laysOut_place (text : List Char) : LaysOut text (place .first (cut text)) where
  cuts := by
    rw [map_fst_place]
    exact fun segments => cuts_iff
  whole := by
    rw [map_fst_place, flatMap_text_cut]
  nonempty piece hpiece := text_ne_nil_of_mem_cut (mem_of_mem_place hpiece)
  spans before piece later h := span_of_place h

theorem eq_place_of_spans {placed : List (Segment × Span)}
    (h : ∀ before piece later, placed = before ++ piece :: later →
      piece.2.start = start.after ((before.map Prod.fst).flatMap Segment.text) ∧
        piece.2.stop = piece.2.start.after piece.1.text) :
    placed = place start (placed.map Prod.fst) := by
  induction placed generalizing start with
  | nil => rfl
  | cons piece placed ih =>
      obtain ⟨segment, span⟩ := piece
      obtain ⟨hstart, hstop⟩ := h [] (segment, span) placed rfl
      obtain rfl : span = ⟨start, start.after segment.text⟩ := by
        rw [hstart] at hstop
        exact congrArg₂ Span.mk hstart hstop
      refine congrArg _ (ih fun before piece later hplaced => ?_)
      rw [hplaced, ← List.cons_append] at h
      have hspan := h _ piece later rfl
      rwa [List.map_cons, List.flatMap_cons, Position.after_append] at hspan

end Segment

/-- A text has one layout. -/
theorem LaysOut.eq_place {text : List Char} {placed : List (Segment × Span)}
    (h : LaysOut text placed) : placed = place .first (cut text) := by
  have hplaced := eq_place_of_spans h.spans
  rwa [← (h.cuts (cut text)).mp (cuts_cut text)] at hplaced

theorem LaysOut.exists_fits {text : List Char} {placed : List (Segment × Span)}
    (h : LaysOut text placed) {piece : Segment × Span} (hpiece : piece ∈ placed) :
    ∃ rest, piece.1.Fits rest :=
  ((h.cuts _).mpr rfl).exists_fits (List.mem_map_of_mem hpiece)

/-! ## The account -/

namespace Segment

variable {segment : Segment} {start : Position}

theorem filter_diagnostic? (segment : Segment) (start : Position) :
    (segment.diagnostic? start).filter Diagnostic.isFatal =
      segment.fault?.map fun message => .fatal message start [] := by
  rw [diagnostic?, fault?]
  cases segment.kind <;> rfl

theorem filter_not_diagnostic? (segment : Segment) (start : Position) :
    ((segment.diagnostic? start).filter fun d => !d.isFatal) =
      if segment.kind = .hugeInt then
        some (.warning "integer literal too large; using max value" start)
      else none := by
  rw [diagnostic?]
  cases segment.kind <;> rfl

theorem position_of_diagnostic? {d : Diagnostic} (h : segment.diagnostic? start = some d) :
    d.position = some start := by
  rw [diagnostic?] at h
  split at h <;> cases h <;> rfl

end Segment

namespace Tokens

variable {placed : List (Segment × Span)}

theorem filter_isFatal_diagnosticsOf (placed : List (Segment × Span)) :
    (diagnosticsOf placed).filter Diagnostic.isFatal = placed.filterMap fun piece =>
      piece.1.fault?.map fun message => .fatal message piece.2.start [] := by
  rw [diagnosticsOf, List.filter_filterMap]
  exact List.filterMap_congr fun piece _ => filter_diagnostic? piece.1 piece.2.start

theorem filter_not_isFatal_diagnosticsOf (placed : List (Segment × Span)) :
    ((diagnosticsOf placed).filter fun d => !d.isFatal) =
      (placed.filter fun piece => piece.1.kind = .hugeInt).map fun piece =>
        .warning "integer literal too large; using max value" piece.2.start := by
  rw [diagnosticsOf, List.filter_filterMap, ← List.filterMap_eq_map, List.filterMap_filter]
  apply List.filterMap_congr
  intro piece _
  simpa using filter_not_diagnostic? piece.1 piece.2.start

/-- Where something is reported. -/
def reportedAt (placed : List (Segment × Span)) : List Position :=
  placed.filterMap fun piece =>
    (piece.1.diagnostic? piece.2.start).map fun _ => piece.2.start

theorem map_position_diagnosticsOf (placed : List (Segment × Span)) :
    (diagnosticsOf placed).map Diagnostic.position = (reportedAt placed).map some := by
  rw [diagnosticsOf, reportedAt, List.map_filterMap, List.map_filterMap]
  apply List.filterMap_congr
  rintro ⟨segment, span⟩ -
  change (segment.diagnostic? span.start).map _ = _
  cases hd : segment.diagnostic? span.start with
  | none => rfl
  | some d => exact congrArg some (position_of_diagnostic? hd)

/-- Segments that fill some room begin one after the other. -/
theorem pairwise_reportedAt {start : Position} {segments : List Segment}
    (hne : ∀ segment ∈ segments, segment.text ≠ []) :
    (reportedAt (place start segments)).Pairwise (· < ·) := by
  apply List.pairwise_filterMap.mpr
  apply (pairwise_place start segments).imp_of_mem
  intro a b ha _ hab p hp q hq
  obtain ⟨d, -, rfl⟩ := Option.map_eq_some_iff.mp hp
  obtain ⟨e, -, rfl⟩ := Option.map_eq_some_iff.mp hq
  exact Position.lt_of_lt_of_le (start_lt_stop_of_mem_place hne ha) hab

theorem accounts_place (text : List Char) :
    (ofText text).Accounts (place .first (cut text)) where
  lexemes := rfl
  faults := filter_isFatal_diagnosticsOf _
  warnings := filter_not_isFatal_diagnosticsOf _
  illegal piece hpiece hkind := by
    obtain ⟨rest, hfits⟩ := (laysOut_place text).exists_fits hpiece
    obtain ⟨c, hc⟩ := hfits.eq_singleton hkind
    refine ⟨c, hc, ?_⟩
    rw [fault?, hkind, hc]
    rfl
  increasing :=
    ⟨reportedAt _, map_position_diagnosticsOf _,
      pairwise_reportedAt fun _ => text_ne_nil_of_mem_cut⟩

/-! ## What one place yields -/

/-- The lexemes that begin at a position. -/
def lexemesAt (tokens : Tokens) (start : Position) : List Lexeme :=
  tokens.lexemes.filter fun lexeme => lexeme.span.start = start

/-- What is reported at a position. -/
def reportsAt (tokens : Tokens) (start : Position) : List Diagnostic :=
  tokens.diagnostics.filter fun d => d.position = some start

/-- No two elements of a list have one key; then what an element is mapped to is all that is found
with its key after mapping. -/
theorem filter_filterMap_of_mem {α β κ : Type} [DecidableEq κ] {f : α → Option β} (key : α → κ)
    (keyOf : β → κ) (hkey : ∀ a b, f a = some b → keyOf b = key a) {as : List α}
    (has : as.Pairwise fun a b => key a ≠ key b) {a : α} (ha : a ∈ as) :
    ((as.filterMap f).filter fun b => keyOf b = key a) = (f a).toList := by
  induction as with
  | nil => cases ha
  | cons first as ih =>
      obtain ⟨hfirst, has⟩ := List.pairwise_cons.mp has
      rcases List.mem_cons.mp ha with rfl | ha
      · have hnone : ((as.filterMap f).filter fun b => keyOf b = key a) = [] := by
          apply List.filter_eq_nil_iff.mpr
          intro b hb
          obtain ⟨other, hother, hf⟩ := List.mem_filterMap.mp hb
          simpa [hkey other b hf] using (hfirst other hother).symm
        cases hf : f a with
        | none => rw [List.filterMap_cons_none hf, hnone, Option.toList_none]
        | some b =>
            have hb : decide (keyOf b = key a) = true := decide_eq_true (hkey a b hf)
            rw [List.filterMap_cons_some hf, List.filter_cons, if_pos hb, hnone,
              Option.toList_some]
      · cases hf : f first with
        | none =>
            rw [List.filterMap_cons_none hf]
            exact ih has ha
        | some b =>
            have hb : ¬decide (keyOf b = key a) = true := by
              rw [hkey first b hf, decide_eq_true_iff]
              exact hfirst a ha
            rw [List.filterMap_cons_some hf, List.filter_cons, if_neg hb]
            exact ih has ha

section Places

variable {text : List Char} {placed : List (Segment × Span)} {piece : Segment × Span}

theorem pairwise_start_ne (text : List Char) :
    (place .first (cut text)).Pairwise fun a b => a.2.start ≠ b.2.start := by
  have hne : ∀ segment ∈ cut text, segment.text ≠ [] := fun _ => text_ne_nil_of_mem_cut
  apply (pairwise_place .first (cut text)).imp_of_mem
  intro a b ha _ hab heq
  have hlt := Position.lt_of_lt_of_le (start_lt_stop_of_mem_place hne ha) hab
  exact Position.lt_irrefl _ (heq ▸ hlt)

/-- Where a segment begins, its token is the only one. -/
theorem lexemesAt_of_mem (hlaid : LaysOut text placed) (h : piece ∈ placed) :
    (ofText text).lexemesAt piece.2.start = (piece.1.token?.map (⟨·, piece.2⟩)).toList := by
  rw [hlaid.eq_place] at h
  refine filter_filterMap_of_mem (fun piece : Segment × Span => piece.2.start)
    (fun lexeme : Lexeme => lexeme.span.start) ?_ (pairwise_start_ne text) h
  rintro ⟨segment, span⟩ lexeme hlexeme
  obtain ⟨token, -, rfl⟩ := Option.map_eq_some_iff.mp hlexeme
  rfl

/-- Where a segment begins, nothing is reported but what is to be said about it. -/
theorem reportsAt_of_mem (hlaid : LaysOut text placed) (h : piece ∈ placed) :
    (ofText text).reportsAt piece.2.start = (piece.1.diagnostic? piece.2.start).toList := by
  rw [hlaid.eq_place] at h
  refine filter_filterMap_of_mem (fun piece : Segment × Span => some piece.2.start)
    Diagnostic.position ?_ ?_ h
  · rintro ⟨segment, span⟩ d hd
    exact position_of_diagnostic? hd
  · exact (pairwise_start_ne text).imp fun hne heq => hne (Option.some.inj heq)

end Places

/-- Tokenizing loses nothing of a text: the text is the concatenation of its segments, which longest
matches determine, and every one of them is a lexeme, blank, a comment, or reported as dropped. -/
theorem loses_nothing (source : String) :
    ∃ placed : List (Segment × Span),
      LaysOut source.toList placed ∧ (ofString source).Accounts placed := by
  refine ⟨place .first (cut source.toList), ?_, ?_⟩
  · exact laysOut_place source.toList
  · exact accounts_place source.toList

end Tokens

end NameCheck
