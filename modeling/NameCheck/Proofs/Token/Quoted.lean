import NameCheck.Proofs.Token.Lossless

/-!
# String literals are judged as they are written

A string literal has one decomposition: its opening quote, plain characters and pairs of a backslash
and a character, and a closing quote or none.  The scan for the closing quote goes through these
pieces one by one.  So it meets a quote that ends it only at the end of the literal, and a literal
is kept exactly if it is closed and all of its pairs are escapes.
-/

namespace NameCheck

open Segment
open scoped Computability

/-! ## The pieces of a literal -/

/-- What stands between the quotes of a string literal: a plain character of its line, or a
backslash together with a character of its line. -/
inductive StringPiece where
  | plain (c : Char) (hc : isPlain c = true)
  | pair (c : Char) (hc : isInLine c = true)

/-- A string literal in pieces.  Only a closed one has a quote at its end. -/
structure StringLiteral where
  pieces : List StringPiece
  closed : Bool

namespace StringPiece

/-- How a piece is written. -/
def text : StringPiece → List Char
  | .plain c _ => [c]
  | .pair c _ => ['\\', c]

/-- The characters that a backslash gives a meaning to. -/
def escapes : List Char := ['n', 't', '\'', '"', '\\']

/-- A backslash before a character to which it gives no meaning. -/
def IsBad : StringPiece → Prop
  | .plain _ _ => False
  | .pair c _ => c ∉ escapes

/-- If a piece is a pair, then its character passes a test. -/
def Passes (test : Char → Bool) : StringPiece → Prop
  | .plain _ _ => True
  | .pair c _ => test c = true

theorem passes_isInLine (piece : StringPiece) : piece.Passes isInLine := by
  cases piece with
  | plain c hc => trivial
  | pair c hc => exact hc

theorem isEscape_iff {c : Char} : isEscape c = true ↔ c ∈ escapes := by
  simp [isEscape, escapes, or_assoc]

theorem passes_isEscape_iff {piece : StringPiece} : piece.Passes isEscape ↔ ¬piece.IsBad := by
  cases piece with
  | plain c hc => exact iff_of_true trivial not_false
  | pair c hc => rw [Passes, IsBad, not_not, isEscape_iff]

end StringPiece

namespace StringLiteral

/-- What stands at the end of a literal. -/
def ending (literal : StringLiteral) : List Char :=
  if literal.closed then ['"'] else []

/-- What follows the opening quote. -/
def tail (literal : StringLiteral) : List Char :=
  literal.pieces.flatMap StringPiece.text ++ literal.ending

/-- How a literal is written. -/
def text (literal : StringLiteral) : List Char :=
  '"' :: literal.tail

/-- A literal that is closed, and in which every pair is an escape. -/
structure WellFormed (literal : StringLiteral) : Prop where
  closed : literal.closed = true
  escapes : ∀ piece ∈ literal.pieces, ¬piece.IsBad

end StringLiteral

/-! ## Patterns of literals -/

namespace StringLiteral

variable {test : Char → Bool} {L : Language Char} {text : List Char}

theorem ending_mem (literal : StringLiteral) : literal.ending ∈ 1 + Pattern.quote := by
  rw [mem_one_add_quote, ending]
  by_cases hclosed : literal.closed = true
  · exact Or.inr (if_pos hclosed)
  · exact Or.inl (if_neg hclosed)

theorem ending_mem_quote_iff (literal : StringLiteral) :
    literal.ending ∈ Pattern.quote ↔ literal.closed = true := by
  rw [mem_quote, ending]
  by_cases hclosed : literal.closed = true
  · rw [if_pos hclosed, iff_true_right hclosed]
  · simp [hclosed]

/-- A pattern of tails matches a literal if its test succeeds for all pairs, and its end is that of
the literal. -/
theorem tail_iff (hL : ∀ text ∈ L, text ∈ 1 + Pattern.quote) (literal : StringLiteral) :
    Tail test L literal.tail ↔
      (∀ piece ∈ literal.pieces, piece.Passes test) ∧ literal.ending ∈ L := by
  obtain ⟨pieces, closed⟩ := literal
  induction pieces with
  | nil =>
      rw [and_iff_right (List.forall_mem_nil _)]
      exact Tail.ending_iff (ending_mem _)
  | cons piece pieces ih =>
      rw [List.forall_mem_cons, and_assoc]
      cases piece with
      | plain c hc => exact (Tail.plain_iff hL hc).trans (ih.trans (and_iff_right trivial).symm)
      | pair c hc => exact (Tail.pair_iff hL).trans (and_congr_right fun _ => ih)

theorem exists_of_tail (h : Tail isInLine (1 + Pattern.quote) text) :
    ∃ literal : StringLiteral, literal.tail = text := by
  induction h with
  | finish h =>
      rcases mem_one_add_quote.mp h with rfl | rfl
      · exact ⟨⟨[], false⟩, rfl⟩
      · exact ⟨⟨[], true⟩, rfl⟩
  | @plain c cs hc _ ih =>
      obtain ⟨⟨pieces, closed⟩, rfl⟩ := ih
      exact ⟨⟨.plain c hc :: pieces, closed⟩, rfl⟩
  | @pair c cs hc _ ih =>
      obtain ⟨⟨pieces, closed⟩, rfl⟩ := ih
      exact ⟨⟨.pair c hc :: pieces, closed⟩, rfl⟩

/-- The pattern of string literals matches exactly the texts of literals. -/
theorem mem_str_iff :
    text ∈ Pattern.str.language ↔ ∃ literal : StringLiteral, literal.text = text := by
  constructor
  · intro h
    obtain ⟨tail, -, rfl⟩ := mem_singleton_mul.mp h
    obtain ⟨literal, rfl⟩ := exists_of_tail (Pattern.mem_str.mp h)
    exact ⟨literal, rfl⟩
  · rintro ⟨literal, rfl⟩
    apply Pattern.mem_str.mpr
    apply (tail_iff (fun _ => id) literal).mpr
    exact ⟨fun piece _ => piece.passes_isInLine, literal.ending_mem⟩

theorem mem_closed_iff (literal : StringLiteral) :
    literal.text ∈ Pattern.closed ↔ literal.closed = true := by
  have hquote : ∀ ending ∈ Pattern.quote, ending ∈ 1 + Pattern.quote := fun _ => Or.inr
  have hinLine : ∀ piece ∈ literal.pieces, piece.Passes isInLine :=
    fun piece _ => piece.passes_isInLine
  rw [text, Pattern.mem_closed, tail_iff hquote, and_iff_right hinLine, ending_mem_quote_iff]

theorem mem_clean_iff (literal : StringLiteral) :
    literal.text ∈ Pattern.clean ↔ ∀ piece ∈ literal.pieces, ¬piece.IsBad := by
  rw [text, Pattern.mem_clean, tail_iff fun _ => id, and_iff_left literal.ending_mem]
  exact forall₂_congr fun _ _ => StringPiece.passes_isEscape_iff

end StringLiteral

/-! ## The scan -/

/-- What one round of the scan for the closing quote meets: a plain character, a backslash with the
character after it, a backslash at the end of the text, or a quote that ends the scan. -/
inductive ScanRound where
  | plain (c : Char)
  | pair (c : Char)
  | lone
  | quote
deriving DecidableEq, Repr

namespace ScanRound

/-- Whether a round finds a backslash that begins no escape. -/
def isBad : ScanRound → Bool
  | .plain _ | .quote => false
  | .pair c => !isEscape c
  | .lone => true

/-- The rounds of the scan of a text, and what it has not looked at when it ends. -/
def rounds : List Char → List ScanRound × List Char
  | [] => ([], [])
  | ['\\'] => ([.lone], [])
  | '\\' :: c :: cs => (.pair c :: (rounds cs).1, (rounds cs).2)
  | c :: cs => if c = '"' then ([.quote], cs) else (.plain c :: (rounds cs).1, (rounds cs).2)

variable {c : Char} {cs : List Char}

theorem rounds_plain (h : isPlain c = true) :
    rounds (c :: cs) = (.plain c :: (rounds cs).1, (rounds cs).2) := by
  obtain ⟨hquote, hslash, -⟩ := isPlain_iff.mp h
  cases cs <;> simp [rounds, hquote, hslash]

/-- A literal is closed if one of the rounds meets a quote, and has a bad escape if one of them
finds it. -/
theorem inspect_eq (text : List Char) :
    inspect text = ((rounds text).1.contains .quote, (rounds text).1.any isBad) := by
  fun_induction inspect text with
  | case1 => rfl
  | case2 => rfl
  | case3 c cs closed bad h ih =>
      rw [h] at ih
      obtain ⟨rfl, rfl⟩ := Prod.mk.inj ih
      rfl
  | case4 cs => cases cs <;> rfl
  | case5 c cs hlone hpair hquote ih =>
      have hrounds : rounds (c :: cs) = (.plain c :: (rounds cs).1, (rounds cs).2) := by
        rw [rounds, if_neg hquote]
        · exact hlone
        · exact hpair
      rw [ih, hrounds]
      rfl

end ScanRound

namespace StringPiece

/-- The round of the scan that goes over a piece. -/
def round : StringPiece → ScanRound
  | .plain c _ => .plain c
  | .pair c _ => .pair c

theorem round_injective {piece other : StringPiece} (h : piece.round = other.round) :
    piece = other := by
  cases piece with
  | plain c hc =>
      cases other with
      | plain d hd =>
          cases h
          rfl
      | pair d hd => cases h
  | pair c hc =>
      cases other with
      | plain d hd => cases h
      | pair d hd =>
          cases h
          rfl

end StringPiece

namespace StringLiteral

/-- The rounds that a literal takes: one for each piece, and one for the closing quote. -/
def rounds (literal : StringLiteral) : List ScanRound :=
  literal.pieces.map StringPiece.round ++ if literal.closed then [.quote] else []

/-- The scan of a literal goes over its pieces and its closing quote, and looks at all of it. -/
theorem rounds_tail (literal : StringLiteral) :
    ScanRound.rounds literal.tail = (literal.rounds, []) := by
  obtain ⟨pieces, closed⟩ := literal
  induction pieces with
  | nil => cases closed <;> rfl
  | cons piece pieces ih =>
      cases piece with
      | plain c hc =>
          change ScanRound.rounds (c :: tail ⟨pieces, closed⟩) = _
          rw [ScanRound.rounds_plain hc, ih]
          rfl
      | pair c hc =>
          change ScanRound.rounds ('\\' :: c :: tail ⟨pieces, closed⟩) = _
          rw [ScanRound.rounds, ih]
          rfl

theorem quote_mem_rounds_iff (literal : StringLiteral) :
    ScanRound.quote ∈ literal.rounds ↔ literal.closed = true := by
  have hpieces : ScanRound.quote ∉ literal.pieces.map StringPiece.round := by
    intro h
    obtain ⟨piece, -, hpiece⟩ := List.mem_map.mp h
    cases piece <;> cases hpiece
  rw [rounds, List.mem_append, or_iff_right hpieces]
  by_cases hclosed : literal.closed = true <;> simp [hclosed]

/-- A text is that of one literal at most. -/
theorem text_injective {literal other : StringLiteral} (h : literal.text = other.text) :
    literal = other := by
  have htail : literal.tail = other.tail := (List.cons.inj h).2
  have hrounds : literal.rounds = other.rounds := by
    have heq := rounds_tail literal
    rw [htail, rounds_tail other] at heq
    exact (Prod.mk.inj heq).1.symm
  have hclosed : literal.closed = other.closed := by
    rw [Bool.eq_iff_iff, ← quote_mem_rounds_iff, ← quote_mem_rounds_iff, hrounds]
  rw [rounds, rounds, hclosed] at hrounds
  have hpieces := List.append_cancel_right hrounds
  have hinjective : Function.Injective StringPiece.round := fun _ _ => StringPiece.round_injective
  obtain ⟨pieces, closed⟩ := literal
  obtain ⟨otherPieces, otherClosed⟩ := other
  exact congrArg₂ mk (List.map_injective_iff.mpr hinjective hpieces) hclosed

end StringLiteral

/-! ## The judgement -/

namespace StringFault

/-- What is wrong with a literal is said in the message for it. -/
theorem message_says (fault : StringFault) :
    ("unterminated".toList <:+: fault.message.toList ↔ fault ≠ .badEscape) ∧
      ("bad escaped character".toList <:+: fault.message.toList ↔ fault ≠ .unterminated) := by
  cases fault <;> decide +kernel

end StringFault

namespace Segment

variable {segment : Segment} {rest : List Char}

/-- What becomes of a string literal: it is kept as it is written, or it has a fault. -/
theorem kind_of_literal (h : segment.Fits rest) (literal : StringLiteral)
    (htext : literal.text = segment.text) :
    (literal.WellFormed → segment.kind = .token (.str (String.ofList segment.text))) ∧
      (¬literal.WellFormed → ∃ fault, segment.kind = .rejected fault ∧
        (fault ≠ .badEscape ↔ literal.closed = false) ∧
        (fault ≠ .unterminated ↔ ∃ piece ∈ literal.pieces, piece.IsBad)) := by
  have hmeans := h.means (StringLiteral.mem_str_iff.mpr ⟨literal, htext⟩) (by decide)
  have hwf : literal.WellFormed ↔
      segment.text ∈ Pattern.closed ∧ segment.text ∈ Pattern.clean := by
    rw [← htext, literal.mem_closed_iff, literal.mem_clean_iff]
    exact ⟨fun hwf => ⟨hwf.closed, hwf.escapes⟩, fun ⟨hclosed, hescapes⟩ => ⟨hclosed, hescapes⟩⟩
  have hopen : literal.closed = false ↔ segment.text ∉ Pattern.closed := by
    rw [← htext, literal.mem_closed_iff, Bool.not_eq_true]
  have hbad : (∃ piece ∈ literal.pieces, piece.IsBad) ↔ segment.text ∉ Pattern.clean := by
    rw [← htext, literal.mem_clean_iff]
    simp
  rw [hwf, hopen, hbad]
  generalize segment.kind = kind at hmeans
  cases hmeans with
  | str hclosed hclean => exact ⟨fun _ => rfl, fun hnot => absurd ⟨hclosed, hclean⟩ hnot⟩
  | badEscape hclosed hclean | unterminated hclosed hclean
  | unterminatedBadEscape hclosed hclean =>
      refine ⟨fun hwf => ?_, fun _ => ⟨_, rfl, ?_, ?_⟩⟩
      · exact absurd hwf (by simp [hclosed, hclean])
      · simp [hclosed]
      · simp [hclean]

end Segment

namespace Tokens

/-- String literals are kept exactly if they are well formed.  A segment that the pattern of
string literals matches is one literal.  The scan goes over the pieces of the literal and its
closing quote, and looks at all of it.  A well-formed literal yields its token, written as it
stands, and no report; any other yields no token and one fatal report, which says what is wrong with
it. -/
theorem string_literals {source : String} {placed : List (Segment × Span)} {piece : Segment × Span}
    (hlaid : LaysOut source.toList placed) (hpiece : piece ∈ placed)
    (hstr : piece.1.text ∈ Pattern.str.language) :
    ∃ literal : StringLiteral,
      (∀ other : StringLiteral, other.text = piece.1.text ↔ other = literal) ∧
      ScanRound.rounds literal.tail = (literal.rounds, []) ∧
      inspect literal.tail =
        (literal.rounds.contains .quote, literal.rounds.any ScanRound.isBad) ∧
      (literal.WellFormed →
        (ofString source).lexemesAt piece.2.start =
            [⟨.str (String.ofList piece.1.text), piece.2⟩] ∧
          (ofString source).reportsAt piece.2.start = []) ∧
      (¬literal.WellFormed →
        (ofString source).lexemesAt piece.2.start = [] ∧
          ∃ message : String,
            (ofString source).reportsAt piece.2.start = [.fatal message piece.2.start []] ∧
            ("unterminated".toList <:+: message.toList ↔ literal.closed = false) ∧
            ("bad escaped character".toList <:+: message.toList ↔
              ∃ part ∈ literal.pieces, part.IsBad)) := by
  obtain ⟨literal, htext⟩ := StringLiteral.mem_str_iff.mp hstr
  obtain ⟨rest, hfits⟩ := hlaid.exists_fits hpiece
  obtain ⟨hkept, hrejected⟩ := kind_of_literal hfits literal htext
  have hlexemes := lexemesAt_of_mem hlaid hpiece
  have hreports := reportsAt_of_mem hlaid hpiece
  have hscan := literal.rounds_tail
  refine ⟨literal, fun other => ?_, hscan, ?_, fun hwf => ?_, fun hnot => ?_⟩
  · rw [← htext]
    exact ⟨StringLiteral.text_injective, congrArg StringLiteral.text⟩
  · rw [ScanRound.inspect_eq, hscan]
  · rw [token?, hkept hwf] at hlexemes
    rw [diagnostic?, hkept hwf] at hreports
    exact ⟨hlexemes, hreports⟩
  · obtain ⟨fault, hkind, hopen, hbad⟩ := hrejected hnot
    obtain ⟨hunterminated, hescape⟩ := fault.message_says
    rw [token?, hkind] at hlexemes
    rw [diagnostic?, hkind] at hreports
    exact ⟨hlexemes, fault.message, hreports, hunterminated.trans hopen, hescape.trans hbad⟩

/-- A backslash before the only other quote leaves a literal open: the scan does not take this quote
for the closing one. -/
theorem string_literals_of_escaped_quote :
    LaysOut "\"a\\\"".toList
        [(⟨['"', 'a', '\\', '"'], .rejected .unterminated⟩, ⟨⟨1, 1⟩, ⟨1, 5⟩⟩)] ∧
      ['"', 'a', '\\', '"'] ∈ Pattern.str.language ∧
      ScanRound.rounds ['a', '\\', '"'] = ([.plain 'a', .pair '"'], []) ∧
      (ofString "\"a\\\"").lexemesAt ⟨1, 1⟩ = [] ∧
      ∃ message : String,
        (ofString "\"a\\\"").reportsAt ⟨1, 1⟩ = [.fatal message (some ⟨1, 1⟩) []] ∧
        "unterminated".toList <:+: message.toList ∧
        ¬"bad escaped character".toList <:+: message.toList := by
  have hplaced : place .first (cut "\"a\\\"".toList) =
      [(⟨['"', 'a', '\\', '"'], .rejected .unterminated⟩, ⟨⟨1, 1⟩, ⟨1, 5⟩⟩)] := by
    decide +kernel
  have hlaid := laysOut_place "\"a\\\"".toList
  rw [hplaced] at hlaid
  let open_ : StringLiteral := ⟨[.plain 'a' rfl, .pair '"' rfl], false⟩
  have hstr : ['"', 'a', '\\', '"'] ∈ Pattern.str.language :=
    StringLiteral.mem_str_iff.mpr ⟨open_, rfl⟩
  obtain ⟨literal, hunique, hscan, -, -, hrejected⟩ :=
    string_literals hlaid (List.mem_singleton_self _) hstr
  obtain rfl : open_ = literal := (hunique open_).mp rfl
  have hnot : ¬open_.WellFormed := fun hwf => Bool.false_ne_true hwf.closed
  obtain ⟨hlexemes, message, hreports, hopen, hbad⟩ := hrejected hnot
  have hclean : ¬∃ part ∈ open_.pieces, part.IsBad := by
    simp [open_, StringPiece.IsBad, StringPiece.escapes]
  exact ⟨hlaid, hstr, hscan, hlexemes, message, hreports, hopen.mpr rfl, mt hbad.mp hclean⟩

end Tokens

end NameCheck
