import NameCheck.Proofs.Grammar.Expectations

/-!
# Parsers come to an end

What the grammar repeats reads something each time, and what it contains of itself comes after
something that was read.  So the loop of a repetition never goes round at one place, a recursive
parser is never entered again where it was entered, and every parser ends: with a value and what
it left, or with a miss in what it was given.
-/

namespace NameCheck.Parser

variable {α : Type} {p : Parser α}

/-- The loop of a repetition that must read something each time it goes round: where an item reads
nothing there is no answer. -/
def items? (p : Parser α) (i : Input) : Option (List α × Input × Option Miss) :=
  match p i with
  | .done a rest missed =>
    if rest.left < i.left then do
      let (as, rest', missed') ← items? p rest
      return (a :: as, rest', Miss.furthest? missed missed')
    else
      none
  | .failed miss => some ([], i, some miss)
termination_by i.left

/-- A parser ends within what it is given: with a value that was read off the front of it, or with
a miss that stands in it. -/
def EndsWithin (p : Parser α) : Prop :=
  ∀ ts, (∃ a read rest missed, ts = read ++ rest ∧ p (.of ts) = .done a (.of rest) missed) ∨
    ∃ miss, p (.of ts) = .failed miss ∧ miss.left ≤ ts.length

theorem Consumes.left_lt (h : Consumes p) {i rest : Input} {a : α} {missed : Option Miss}
    (hp : p i = .done a rest missed) : rest.left < i.left := by
  rw [rest.left_eq, i.left_eq]
  exact h i.rest a rest.rest ⟨missed, by rw [Input.of_rest, Input.of_rest, hp]⟩

/-- The loop has an answer where each item reads something, and this is what the repetition
reads. -/
theorem Consumes.items?_eq (h : Consumes p) (i : Input) : items? p i = some (items p i) := by
  induction hn : i.left using Nat.strongRecOn generalizing i with
  | ind n ih =>
      rw [items?, items]
      cases hp : p i with
      | failed miss => rfl
      | done a rest missed =>
          have hlt := h.left_lt hp
          simp only [if_pos hlt, ih rest.left (hn ▸ hlt) rest rfl]
          rfl

theorem Tells.endsWithin {L : Language Lexeme} (h : Tells p L) : EndsWithin p := by
  intro ts
  rcases done_or_failed p ts with ⟨a, us, missed, hp⟩ | ⟨miss, hp⟩
  · obtain ⟨xs, rfl, -⟩ := h.sound _ _ _ _ hp
    exact Or.inl ⟨a, xs, us, missed, rfl, hp⟩
  · exact Or.inr ⟨miss, hp, (h.failed hp).truthful.left_le⟩

end NameCheck.Parser

namespace NameCheck.Grammar

open NameCheck.Parser

variable {α : Type} {p : Parser α}

/-- What the grammar repeats: fields behind dots, prefixes, operators with their right operands,
declarations of variables, statements and declarations at the top, and formals and arguments, the
first ones and those behind a comma. -/
inductive Repeated : {α : Type} → Parser α → Prop where
  | field : Repeated (do sign .dot; ident)
  | unaryOp : Repeated (operator .minus UnaryOp.neg <|> operator .not UnaryOp.not)
  | operation {l k : Level} (hk : l.operand? = some k) :
      Repeated (do
        let op ← l.operator
        let rhs ← k.parser expr
        return (op, rhs))
  | varDecl : Repeated varDecl
  | stmt : Repeated stmt
  | decl : Repeated decl
  | formal : Repeated formal
  | nextFormal : Repeated (do sign .comma; formal)
  | argument : Repeated expr
  | nextArgument : Repeated (do sign .comma; expr)

/-- The parsers of the parts of a program. -/
inductive PartParser : {α : Type} → Parser α → Prop where
  | ident : PartParser ident
  | type : PartParser typeSpec
  | varDecl : PartParser varDecl
  | formal : PartParser formal
  | location : PartParser location
  | call : PartParser (call expr)
  | expr : PartParser expr
  | stmt : PartParser stmt
  | block : PartParser block
  | decl : PartParser decl
  | program : PartParser program

/-- A parser of what cannot be empty reads something. -/
theorem consumes_nonterminal {n : Nonterminal} (hn : n.nullable = false) : Consumes n.parser :=
  (sound_nonterminal n).consumes fun _ _ hxs hnil => by
    obtain ⟨t, ts, h, -⟩ := hxs.begins.exists_first hn
    cases hnil.symm.trans h

theorem Repeated.consumes (h : Repeated p) : Consumes p := by
  cases h with
  | field => exact consumes_nonterminal (n := .dotName) rfl
  | unaryOp => exact consumes_nonterminal (n := .unaryOp) rfl
  | @operation l _ hk =>
      rw [← Level.operation_eq hk]
      exact consumes_nonterminal (n := .operation l) rfl
  | varDecl => exact consumes_nonterminal (n := .varDecl) rfl
  | stmt => exact consumes_nonterminal (n := .stmt) rfl
  | decl => exact consumes_nonterminal (n := .decl) rfl
  | formal => exact consumes_nonterminal (n := .formal) rfl
  | nextFormal => exact consumes_nonterminal (n := .next .formal) rfl
  | argument => exact consumes_nonterminal (n := .exp) rfl
  | nextArgument => exact consumes_nonterminal (n := .next .exp) rfl

theorem endsWithin_program : EndsWithin program := by
  intro ts
  rcases done_or_failed program ts with ⟨p, us, missed, hp⟩ | ⟨miss, hp⟩
  · obtain ⟨xs, rfl, -⟩ := sound_program _ _ _ ⟨missed, hp⟩
    exact Or.inl ⟨p, xs, us, missed, rfl, hp⟩
  · exact Or.inr ⟨miss, hp, (program_failed hp).left_le⟩

theorem PartParser.endsWithin (h : PartParser p) : EndsWithin p := by
  cases h with
  | ident => exact tells_ident.endsWithin
  | type => exact tells_typeSpec.endsWithin
  | varDecl => exact tells_varDecl.endsWithin
  | formal => exact tells_formal.endsWithin
  | location => exact tells_location.endsWithin
  | call => exact (tells_call tells_expr).endsWithin
  | expr => exact tells_expr.endsWithin
  | stmt => exact (tells_stmtWith tells_block).endsWithin
  | block => exact tells_block.endsWithin
  | decl => exact tells_decl.endsWithin
  | program => exact endsWithin_program

end NameCheck.Grammar

namespace NameCheck

open NameCheck.Grammar NameCheck.Parser

theorem Program.parse_cases (lexemes : List Lexeme) (eoi : Span) :
    (∃ p, parse lexemes eoi = .ok p ∧ Derives .program lexemes p) ∨
      (¬∃ p, Derives .program lexemes p) ∧
        ∃ error k, parse lexemes eoi = .error error ∧ error.StandsAt lexemes eoi k := by
  cases h : parse lexemes eoi with
  | ok p => exact Or.inl ⟨p, rfl, parse_ok_iff_derives.mp h⟩
  | error error =>
      have hnone : ¬∃ p, Derives .program lexemes p := by
        rintro ⟨p, hp⟩
        rw [parse_ok_iff_derives.mpr hp] at h
        cases h
      obtain ⟨miss, -, rfl⟩ := Parser.parse_error_iff.mp h
      exact Or.inr ⟨hnone, _, _, rfl, SyntaxError.standsAt_ofMiss lexemes eoi miss⟩

/-- Parsing ends.  All that is repeated reads something whenever it succeeds, so no repetition
goes round without reading.  Expressions and blocks are entered from within themselves only further
on, so that the entries nest no deeper than there are lexemes.  All parsers end within what they
are given.  Reading a program gives the one that the lexemes derive, or, where they derive none, an
error at one of them or at the end. -/
theorem parsing_ends :
    (∀ (α : Type) (p : Parser α), Repeated p →
        Consumes p ∧ ∀ i, items? p i = some (items p i)) ∧
      (MovesOn exprWith ∧ MovesOn blockWith) ∧
      (∀ (n : Nat) (i : Input), i.left < n →
        (∀ bottom, exprWith^[n] bottom i = expr i) ∧
          ∀ bottom, blockWith^[n] bottom i = block i) ∧
      (∀ (α : Type) (p : Parser α), PartParser p → EndsWithin p) ∧
      ∀ lexemes eoi,
        (∃ p, Program.parse lexemes eoi = .ok p ∧ Derives .program lexemes p) ∨
          (¬∃ p, Derives .program lexemes p) ∧
            ∃ error k, Program.parse lexemes eoi = .error error ∧
              error.StandsAt lexemes eoi k := by
  refine ⟨?_, ⟨movesOn_exprWith, movesOn_blockWith⟩, ?_, ?_, Program.parse_cases⟩
  · intro α p h
    exact ⟨h.consumes, h.consumes.items?_eq⟩
  · intro n i hn
    exact ⟨fun bottom => movesOn_exprWith.iterate bottom hn,
      fun bottom => movesOn_blockWith.iterate bottom hn⟩
  · intro α p h
    exact h.endsWithin

/-- In `-(x` the loop over the prefixes ends after one of them, and four expressions within each
other are enough to see that the bracket is never closed. -/
theorem parsing_ends_of_open_bracket :
    let ts : List Lexeme := [⟨.sign .minus, ⟨1, 1⟩, ⟨1, 2⟩⟩, ⟨.sign .lparen, ⟨1, 2⟩, ⟨1, 3⟩⟩,
      ⟨.name "x", ⟨1, 3⟩, ⟨1, 4⟩⟩]
    let unaryOp := operator .minus UnaryOp.neg <|> operator .not UnaryOp.not
    ((items? unaryOp (.of ts)).map fun read => (read.1, read.2.1.left)) = some ([.neg], 2) ∧
      exprWith (below expr (.of ts)) (.of ts) = expr (.of ts) ∧
      exprWith^[4] (fun i => .failed ⟨i.left, []⟩) (.of ts) = expr (.of ts) ∧
      ∃ miss, expr (.of ts) = .failed miss ∧ miss.left ≤ 3 := by
  intro ts unaryOp
  obtain ⟨hrepeated, ⟨hexpr, -⟩, hnested, hends, -⟩ := parsing_ends
  refine ⟨?_, ?_, (hnested 4 (.of ts) (by decide)).1 _, ?_⟩
  · rw [(hrepeated _ _ .unaryOp).2 (.of ts)]
    decide +kernel
  · exact (hexpr _ _ fun j hj => if_pos hj).symm
  · have hfailed : (match expr (.of ts) with
        | .done .. => false
        | .failed _ => true) = true := by decide +kernel
    rcases hends _ _ .expr ts with ⟨a, read, rest, missed, -, h⟩ | h
    · rw [h] at hfailed
      cases hfailed
    · exact h

end NameCheck
