/-!
# Positions and spans

A position is a line and a column, both counted from one.  Columns count characters, and only
a line feed ends a line.  Positions are ordered as they stand in a text, line first.
-/

namespace NameCheck

/-- A place in a text. -/
structure Position where
  line : Nat
  column : Nat
deriving DecidableEq, Repr

namespace Position

/-- The place before the first character of a text. -/
def first : Position := ⟨1, 1⟩

/-- The place after a character that stands at `p`. -/
def advance (p : Position) (c : Char) : Position :=
  if c = '\n' then ⟨p.line + 1, 1⟩ else ⟨p.line, p.column + 1⟩

/-- The place after a piece of text that begins at `p`. -/
def after (p : Position) (text : List Char) : Position :=
  text.foldl advance p

instance : LT Position where
  lt p q := p.line < q.line ∨ (p.line = q.line ∧ p.column < q.column)

theorem lt_def {p q : Position} :
    p < q ↔ p.line < q.line ∨ (p.line = q.line ∧ p.column < q.column) :=
  Iff.rfl

instance (p q : Position) : Decidable (p < q) :=
  inferInstanceAs (Decidable (_ ∨ _))

theorem lt_irrefl (p : Position) : ¬p < p := by
  simp [lt_def]

theorem lt_trans {p q r : Position} (hpq : p < q) (hqr : q < r) : p < r := by
  rw [lt_def] at *
  omega

theorem lt_asymm {p q : Position} (h : p < q) : ¬q < p :=
  fun h' => lt_irrefl p (lt_trans h h')

theorem eq_of_not_lt {p q : Position} (hpq : ¬p < q) (hqp : ¬q < p) : p = q := by
  obtain ⟨l, c⟩ := p
  obtain ⟨l', c'⟩ := q
  simp only [lt_def] at *
  simp only [mk.injEq]
  omega

/-- A position is written as its line and its column around a colon. -/
def text (p : Position) : String :=
  toString p.line ++ ":" ++ toString p.column

@[simp]
theorem after_nil (p : Position) : p.after [] = p := rfl

@[simp]
theorem after_cons (p : Position) (c : Char) (cs : List Char) :
    p.after (c :: cs) = (p.advance c).after cs := rfl

theorem after_append (p : Position) (cs ds : List Char) :
    p.after (cs ++ ds) = (p.after cs).after ds :=
  List.foldl_append

end Position

/-- A piece of a text, from `start` up to but not including `stop`. -/
structure Span where
  start : Position
  stop : Position
deriving DecidableEq, Repr

namespace Span

/-- The empty span at a place. -/
def empty (p : Position) : Span := ⟨p, p⟩

/-- A span is written as its two ends around a dash. -/
def text (s : Span) : String :=
  s.start.text ++ "-" ++ s.stop.text

end Span

end NameCheck
