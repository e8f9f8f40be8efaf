import NameCheck.Token.Basic

/-!
# Parsers

A parser reads a value off the front of a list of lexemes, or fails.  Beside its result it keeps
the furthest place at which an attempt failed, with the tokens that would have been accepted
there.  Choices take the first alternative that succeeds and then forget what the earlier ones
missed; repetitions read as many items as they can.
-/

namespace NameCheck

/-- The lexemes that are still to be read, with their number. -/
structure Input where
  rest : List Lexeme
  left : Nat
  left_eq : left = rest.length

namespace Input

/-- The input that a list of lexemes makes up. -/
def of (rest : List Lexeme) : Input := ⟨rest, rest.length, rfl⟩

/-- The first lexeme and the input after it. -/
def next? (input : Input) : Option (Lexeme × Input) :=
  match input with
  | ⟨[], _, _⟩ => none
  | ⟨lexeme :: rest, left, h⟩ => some (lexeme, ⟨rest, left - 1, by simp [h]⟩)

@[ext]
theorem ext {i j : Input} (h : i.rest = j.rest) : i = j := by
  obtain ⟨_, _, rfl⟩ := i
  obtain ⟨_, _, rfl⟩ := j
  cases h
  rfl

@[simp]
theorem rest_of (rest : List Lexeme) : (of rest).rest = rest := rfl

@[simp]
theorem left_of (rest : List Lexeme) : (of rest).left = rest.length := rfl

@[simp]
theorem of_rest (i : Input) : of i.rest = i := ext rfl

@[simp]
theorem next?_nil : (of []).next? = none := rfl

@[simp]
theorem next?_cons (lexeme : Lexeme) (rest : List Lexeme) :
    (of (lexeme :: rest)).next? = some (lexeme, of rest) := rfl

end Input

/-- A failed attempt: how many lexemes were left where it failed, and what it would have accepted
there.  The list is read as a set, in which `none` is the end of the input. -/
structure Miss where
  left : Nat
  expected : List (Option Token)
deriving DecidableEq, Repr

namespace Miss

/-- Of two failed attempts the one that got further; at the same place, both. -/
def furthest (a b : Miss) : Miss :=
  if a.left < b.left then a
  else if b.left < a.left then b
  else ⟨a.left, a.expected ++ b.expected⟩

/-- The furthest of two attempts, each of which may not have failed. -/
def furthest? : Option Miss → Option Miss → Option Miss
  | none, b => b
  | a, none => a
  | some a, some b => some (a.furthest b)

/-- The furthest of an attempt that may have failed and one that did. -/
def furthestOf : Option Miss → Miss → Miss
  | none, b => b
  | some a, b => a.furthest b

end Miss

/-- How a parser ends: with a value, the input after it and the furthest miss on the way, or with
a miss. -/
inductive Outcome (α : Type) where
  | done (value : α) (rest : Input) (missed : Option Miss)
  | failed (miss : Miss)

/-- Parsers of values of a type. -/
def Parser (α : Type) := Input → Outcome α

namespace Parser

/-! ## Tokens -/

/-- Reads the token for which `f` has a value; a failure names no token that it expected. -/
def select (f : Lexeme → Option α) : Parser α := fun i =>
  match i.next? with
  | some (lexeme, rest) =>
    match f lexeme with
    | some a => .done a rest none
    | none => .failed ⟨i.left, []⟩
  | none => .failed ⟨i.left, []⟩

/-- Reads one given token. -/
def token (t : Token) : Parser Unit := fun i =>
  match i.next? with
  | some (lexeme, rest) =>
    if lexeme.token = t then .done () rest none else .failed ⟨i.left, [some t]⟩
  | none => .failed ⟨i.left, [some t]⟩

/-- Reads one given sign. -/
def sign (s : Sign) : Parser Unit := token (.sign s)

/-- Reads one given reserved word. -/
def keyword (w : Keyword) : Parser Unit := token (.keyword w)

/-- Succeeds when nothing is left. -/
def endOfInput : Parser Unit := fun i =>
  match i.next? with
  | some _ => .failed ⟨i.left, [none]⟩
  | none => .done () i none

/-! ## Sequences -/

/-- Reads nothing. -/
protected def pure (a : α) : Parser α := fun i => .done a i none

/-- Reads one thing after another. -/
protected def bind (p : Parser α) (f : α → Parser β) : Parser β := fun i =>
  match p i with
  | .done a rest missed =>
    match f a rest with
    | .done b rest' missed' => .done b rest' (Miss.furthest? missed missed')
    | .failed miss => .failed (Miss.furthestOf missed miss)
  | .failed miss => .failed miss

instance : Monad Parser where
  pure := Parser.pure
  bind := Parser.bind

/-- Reads something between two signs. -/
def between (opening closing : Sign) (p : Parser α) : Parser α := do
  sign opening
  let a ← p
  sign closing
  return a

/-! ## Choices and repetitions -/

/-- Reads with the first of two parsers, or, where that one fails, with the second. -/
protected def orElse (p : Parser α) (q : Unit → Parser α) : Parser α := fun i =>
  match p i with
  | .done a rest missed => .done a rest missed
  | .failed miss =>
    match q () i with
    | .done a rest missed => .done a rest missed
    | .failed miss' => .failed (miss.furthest miss')

instance : OrElse (Parser α) where
  orElse := Parser.orElse

/-- Reads something if it is there. -/
def optional (p : Parser α) : Parser (Option α) := fun i =>
  match p i with
  | .done a rest missed => .done (some a) rest missed
  | .failed miss => .done none i (some miss)

/-- Items read one after another as long as they succeed and read something, the input after
them, and the furthest miss. -/
def items (p : Parser α) (i : Input) : List α × Input × Option Miss :=
  match p i with
  | .done a rest missed =>
    if rest.left < i.left then
      let (as, rest', missed') := items p rest
      (a :: as, rest', Miss.furthest? missed missed')
    else
      ([a], rest, missed)
  | .failed miss => ([], i, some miss)
termination_by i.left

/-- Reads any number of items. -/
def many (p : Parser α) : Parser (List α) := fun i =>
  let (as, rest, missed) := items p i
  .done as rest missed

/-- Reads any number of items between separators.  A separator without an item after it is not
read. -/
def sepBy (p : Parser α) (separator : Parser Unit) : Parser (List α) := do
  let list? ← optional do
    let a ← p
    let as ← many (do separator; p)
    return a :: as
  return list?.getD []

/-- A parser that contains itself.  The inner one is entered only further on in the input. -/
def recursive (body : Parser α → Parser α) : Parser α := fun i =>
  body (fun j => if j.left < i.left then recursive body j else .failed ⟨j.left, []⟩) i
termination_by i => i.left

/-! ## Running -/

/-- What a parser reads off the front of some lexemes, or where it fails. -/
def run (p : Parser α) (lexemes : List Lexeme) : Except Miss α :=
  match p (.of lexemes) with
  | .done a _ _ => .ok a
  | .failed miss => .error miss

/-- Reads the whole input. -/
def whole (p : Parser α) : Parser α := do
  let a ← p
  endOfInput
  return a

end Parser

end NameCheck
