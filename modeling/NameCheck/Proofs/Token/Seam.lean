import NameCheck.Proofs.Source.Lines
import NameCheck.Proofs.Token.Longest
import NameCheck.Token.Tokenize

/-!
# Where two texts meet

No token reaches over a line feed, and neither does a comment or a string literal that is rejected.
So a text that is followed by a line feed and more yields what it yields alone, and then what the
rest yields, which stands further down.
-/

namespace NameCheck

/-! ## Further down -/

namespace Position

/-- The place in the same column some lines further down. -/
def lower (n : Nat) (p : Position) : Position :=
  ⟨p.line + n, p.column⟩

theorem advance_lower (n : Nat) (p : Position) (c : Char) :
    (p.lower n).advance c = (p.advance c).lower n := by
  rw [advance, advance]
  split
  · rw [lower, lower, Nat.add_right_comm]
  · rfl

theorem after_lower (n : Nat) (p : Position) (text : List Char) :
    (p.lower n).after text = (p.after text).lower n := by
  induction text generalizing p with
  | nil => rfl
  | cons c cs ih => rw [after_cons, after_cons, advance_lower, ih]

/-- The first place after a text and a line feed. -/
theorem advance_after_first (text : List Char) :
    (first.after text).advance '\n' = first.lower (text.count '\n' + 1) := by
  have hline := line_after first text
  rw [advance, if_pos rfl, hline, lower, Nat.add_assoc]
  rfl

end Position

/-- The same span some lines further down. -/
def Span.lower (n : Nat) (span : Span) : Span :=
  ⟨span.start.lower n, span.stop.lower n⟩

/-- The same lexeme some lines further down. -/
def Lexeme.lower (n : Nat) (lexeme : Lexeme) : Lexeme :=
  ⟨lexeme.token, lexeme.span.lower n⟩

/-- The same report some lines further down. -/
def Diagnostic.lower (n : Nat) (d : Diagnostic) : Diagnostic :=
  ⟨d.severity, d.message, d.position.map (Position.lower n), d.notes⟩

/-! ## Line feeds end segments -/

namespace Segment

variable {c : Char} {cs : List Char}

theorem takeWhile_append_lineFeed {test : Char → Bool} (h : test '\n' = false)
    (cs ds : List Char) : (cs ++ '\n' :: ds).takeWhile test = cs.takeWhile test := by
  rw [List.takeWhile_append, List.takeWhile_cons_of_neg (Bool.eq_false_iff.mp h),
    List.append_nil]
  split
  · rename_i hall
    exact ((List.takeWhile_prefix test).eq_of_length hall).symm
  · rfl

theorem stringTail_append_lineFeed (cs ds : List Char) :
    stringTail (cs ++ '\n' :: ds) = stringTail cs := by
  fun_induction stringTail cs with
  | case1 | case2 | case3 | case5 | case6 => rfl
  | case4 c cs h ih => rw [List.cons_append, List.cons_append, stringTail, if_neg h, ih]
  | case7 c cs hlast hpair hquote hline ih =>
      have hslash : c ≠ '\\' := by
        rintro rfl
        cases cs with
        | nil => exact hlast rfl rfl
        | cons d cs => exact hpair d cs rfl rfl
      rw [List.cons_append, stringTail_plain (isPlain_iff.mpr ⟨hquote, hslash, hline⟩), ih]

theorem isPrefixOf_append_lineFeed {mark : List Char} (h : '\n' ∉ mark) (text ds : List Char) :
    mark.isPrefixOf (text ++ '\n' :: ds) = mark.isPrefixOf text := by
  induction mark generalizing text with
  | nil => rfl
  | cons c mark ih =>
      obtain ⟨hc, hmark⟩ := List.ne_and_not_mem_of_not_mem_cons h
      cases text with
      | nil =>
          have hne : (c == '\n') = false := beq_eq_false_iff_ne.mpr hc.symm
          change (c == '\n' && mark.isPrefixOf ds) = false
          rw [hne, Bool.false_and]
      | cons d text =>
          rw [List.cons_append, List.isPrefixOf, List.isPrefixOf, ih hmark]

theorem atStart?_append_lineFeed (text ds : List Char) :
    Sign.atStart? (text ++ '\n' :: ds) = Sign.atStart? text := by
  refine congrArg (List.find? · Sign.all) (funext fun sign => ?_)
  exact isPrefixOf_append_lineFeed sign.lineFeed_not_mem_text text ds

/-- What a segment that is no white space takes of a text does not depend on what comes after a line
feed. -/
theorem scan_append_lineFeed (h : isBlank c = false) (cs ds : List Char) :
    scan c (cs ++ '\n' :: ds) = scan c cs := by
  have hname : isNamePart '\n' = false := rfl
  have hdigit : Char.isDigit '\n' = false := rfl
  have hcomment : (cs ++ '\n' :: ds).takeWhile (· ≠ '\n') = cs.takeWhile (· ≠ '\n') :=
    takeWhile_append_lineFeed (rfl : isInLine '\n' = false) cs ds
  have hhead : ((cs ++ '\n' :: ds).head? = some '/') = (cs.head? = some '/') := by
    cases cs with
    | nil => simp
    | cons d cs => rfl
  have hsign : Sign.atStart? (c :: (cs ++ '\n' :: ds)) = Sign.atStart? (c :: cs) :=
    atStart?_append_lineFeed (c :: cs) ds
  have hblank : ¬isBlank c = true := Bool.eq_false_iff.mp h
  rw [scan, scan, if_neg hblank, if_neg hblank]
  simp only [takeWhile_append_lineFeed hname, takeWhile_append_lineFeed hdigit,
    stringTail_append_lineFeed, hcomment, hhead, hsign]

end Segment

/-! ## Solid pieces -/

namespace Segment

variable {start : Position} {c : Char} {cs : List Char}

/-- The segments of a text that are no white space, with their spans, when the text begins at
`start`. -/
def solid (start : Position) (text : List Char) : List (Segment × Span) :=
  (place start (cut text)).filter fun piece => piece.1.kind ≠ .blank

theorem solid_nil (start : Position) : solid start [] = [] := by
  rw [solid, cut]
  rfl

theorem solid_cons (start : Position) (c : Char) (cs : List Char) :
    let segment : Segment := ⟨c :: (scan c cs).2, (scan c cs).1⟩
    solid start (c :: cs) =
      [(segment, ⟨start, start.after segment.text⟩)].filter (fun piece => piece.1.kind ≠ .blank) ++
        solid (start.after segment.text) (cs.drop (scan c cs).2.length) := by
  intro segment
  rw [solid, cut, place, ← List.singleton_append, List.filter_append]
  rfl

/-- White space at the beginning does not matter. -/
theorem solid_drop_blank (start : Position) (cs : List Char) :
    solid (start.after (cs.takeWhile isBlank)) (cs.drop (cs.takeWhile isBlank).length) =
      solid start cs := by
  cases cs with
  | nil => rfl
  | cons c cs =>
      cases h : isBlank c with
      | false =>
          rw [List.takeWhile_cons_of_neg (Bool.eq_false_iff.mp h)]
          rfl
      | true =>
          rw [List.takeWhile_cons_of_pos h, solid_cons, scan_blank h]
          rfl

theorem solid_blank (h : isBlank c = true) (start : Position) (cs : List Char) :
    solid start (c :: cs) = solid (start.advance c) cs := by
  rw [solid_cons, scan_blank h, ← solid_drop_blank (start.advance c)]
  rfl

/-- No solid piece reaches over a line feed. -/
theorem solid_append (start : Position) (text rest : List Char) :
    solid start (text ++ '\n' :: rest) =
      solid start text ++ solid ((start.after text).advance '\n') rest := by
  -- a piece is taken off at a time, and it is the same piece with and without the rest
  induction hlength : text.length using Nat.strongRecOn generalizing start text with
  | ind n ih =>
    cases text with
    | nil =>
        rw [List.nil_append, solid_blank rfl, solid_nil]
        rfl
    | cons c cs =>
        rw [List.length_cons] at hlength
        cases h : isBlank c with
        | true =>
            rw [List.cons_append, solid_blank h, solid_blank h,
              ih cs.length (by omega) (start.advance c) cs rfl, Position.after_cons]
        | false =>
            have hprefix := scan_prefix c cs
            rw [List.cons_append, solid_cons, solid_cons, scan_append_lineFeed h]
            generalize (scan c cs).2 = tail, (scan c cs).1 = kind at hprefix
            obtain ⟨left, rfl⟩ := hprefix
            rw [List.length_append] at hlength
            rw [List.append_assoc, List.drop_left, List.drop_left,
              ih left.length (by omega) _ left rfl, List.append_assoc, ← Position.after_append]
            rfl

theorem place_lower (n : Nat) (start : Position) (segments : List Segment) :
    place (start.lower n) segments =
      (place start segments).map fun piece => (piece.1, piece.2.lower n) := by
  induction segments generalizing start with
  | nil => rfl
  | cons segment segments ih =>
      rw [place, place, Position.after_lower, ih]
      rfl

theorem solid_lower (n : Nat) (start : Position) (text : List Char) :
    solid (start.lower n) text =
      (solid start text).map fun piece => (piece.1, piece.2.lower n) := by
  rw [solid, solid, place_lower, List.filter_map]
  rfl

theorem diagnostic?_lower (segment : Segment) (n : Nat) (start : Position) :
    segment.diagnostic? (start.lower n) =
      (segment.diagnostic? start).map (Diagnostic.lower n) := by
  rw [diagnostic?, diagnostic?]
  cases segment.kind <;> rfl

end Segment

/-! ## What two texts yield -/

namespace Tokens

open Segment

variable {start : Position} {text rest : List Char}

theorem lexemesOf_solid (start : Position) (text : List Char) :
    lexemesOf (solid start text) = lexemesOf (place start (cut text)) := by
  rw [lexemesOf, lexemesOf, solid, List.filterMap_filter]
  refine List.filterMap_congr fun ⟨⟨_, kind⟩, _⟩ _ => ?_
  cases kind <;> rfl

theorem diagnosticsOf_solid (start : Position) (text : List Char) :
    diagnosticsOf (solid start text) = diagnosticsOf (place start (cut text)) := by
  rw [diagnosticsOf, diagnosticsOf, solid, List.filterMap_filter]
  refine List.filterMap_congr fun ⟨⟨_, kind⟩, _⟩ _ => ?_
  cases kind <;> rfl

theorem lexemesOf_lower (n : Nat) (placed : List (Segment × Span)) :
    lexemesOf (placed.map fun piece => (piece.1, piece.2.lower n)) =
      (lexemesOf placed).map (Lexeme.lower n) := by
  rw [lexemesOf, lexemesOf, List.filterMap_map, List.map_filterMap]
  refine List.filterMap_congr fun ⟨segment, span⟩ _ => ?_
  change segment.token?.map (⟨·, span.lower n⟩) =
    (segment.token?.map (⟨·, span⟩)).map (Lexeme.lower n)
  rw [Option.map_map]
  rfl

theorem diagnosticsOf_lower (n : Nat) (placed : List (Segment × Span)) :
    diagnosticsOf (placed.map fun piece => (piece.1, piece.2.lower n)) =
      (diagnosticsOf placed).map (Diagnostic.lower n) := by
  rw [diagnosticsOf, diagnosticsOf, List.filterMap_map, List.map_filterMap]
  exact List.filterMap_congr fun piece _ => piece.1.diagnostic?_lower n piece.2.start

/-- The solid pieces of a text, of a line feed, and of a rest. -/
theorem solid_first_append (text rest : List Char) :
    solid .first (text ++ '\n' :: rest) = solid .first text ++
      (solid .first rest).map fun piece => (piece.1, piece.2.lower (text.count '\n' + 1)) := by
  rw [solid_append, Position.advance_after_first, solid_lower]

theorem ofString_append (source rest : String) :
    ofString (source ++ "\n" ++ rest) = ofText (source.toList ++ '\n' :: rest.toList) := by
  rw [ofString, String.toList_append, String.toList_append, List.append_assoc]
  rfl

theorem lexemes_append (source rest : String) :
    (ofString (source ++ "\n" ++ rest)).lexemes = (ofString source).lexemes ++
      (ofString rest).lexemes.map (Lexeme.lower (source.toList.count '\n' + 1)) := by
  rw [ofString_append, ofString, ofString, ofText, ofText, ofText, ← lexemesOf_solid,
    ← lexemesOf_solid, ← lexemesOf_solid, solid_first_append, ← lexemesOf_lower]
  exact List.filterMap_append

theorem diagnostics_append (source rest : String) :
    (ofString (source ++ "\n" ++ rest)).diagnostics = (ofString source).diagnostics ++
      (ofString rest).diagnostics.map (Diagnostic.lower (source.toList.count '\n' + 1)) := by
  rw [ofString_append, ofString, ofString, ofText, ofText, ofText, ← diagnosticsOf_solid,
    ← diagnosticsOf_solid, ← diagnosticsOf_solid, solid_first_append, ← diagnosticsOf_lower]
  exact List.filterMap_append

theorem eoi_append (source rest : String) :
    (ofString (source ++ "\n" ++ rest)).eoi =
      (ofString rest).eoi.lower (source.toList.count '\n' + 1) := by
  have hfinish : Position.first.after (source.toList ++ '\n' :: rest.toList) =
      (Position.first.after rest.toList).lower (source.toList.count '\n' + 1) := by
    rw [Position.after_append, Position.after_cons, Position.advance_after_first,
      Position.after_lower]
  rw [ofString_append]
  exact congrArg Span.empty hfinish

/-- Texts are tokenized line by line.  What a text, a line feed and a rest yield is what the
text yields, followed by what the rest yields with every place further down by the lines that come
before it: the lexemes, the reports, and the place of the end.  Nothing that the text leaves open in
its last line reaches into the rest. -/
theorem line_by_line (source rest : String) :
    let whole := ofString (source ++ "\n" ++ rest)
    let lines := source.toList.count '\n' + 1
    whole.lexemes =
        (ofString source).lexemes ++ (ofString rest).lexemes.map (Lexeme.lower lines) ∧
      whole.diagnostics =
        (ofString source).diagnostics ++ (ofString rest).diagnostics.map (Diagnostic.lower lines) ∧
      whole.eoi = (ofString rest).eoi.lower lines :=
  ⟨lexemes_append source rest, diagnostics_append source rest, eoi_append source rest⟩

/-- A backslash before a line feed takes nothing of the next line. -/
example :
    ofString "x \"a\\\n;" =
      ⟨[⟨.name "x", ⟨1, 1⟩, ⟨1, 2⟩⟩, ⟨.sign .semicolon, ⟨2, 1⟩, ⟨2, 2⟩⟩],
        [.fatal "unterminated string literal ignored" (some ⟨1, 3⟩) [],
          .fatal "illegal character ignored: \\" (some ⟨1, 5⟩) []],
        ⟨2, 2⟩⟩ := by
  cbv

end Tokens

end NameCheck
