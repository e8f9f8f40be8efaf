import NameCheck.Token.Basic

/-!
# Segments

A text is cut, from its start to its end, into segments: white space, comments, tokens, string
literals that are rejected, and single characters that begin none of these.  Each segment is as
long as the text allows.
-/

namespace NameCheck

/-- The greatest integer that a literal can stand for. -/
def maxInt : Nat := 2147483647

/-- What is wrong with a string literal. -/
inductive StringFault where
  | badEscape
  | unterminated
  | unterminatedBadEscape
deriving DecidableEq, Repr

namespace Segment

/-- What a segment is.  The token of a number beyond `maxInt` is `maxInt`. -/
inductive Kind where
  | blank
  | comment
  | token (token : Token)
  | hugeInt
  | rejected (fault : StringFault)
  | illegal
deriving DecidableEq, Repr

end Segment

/-- A piece of a text: its characters, and what they are. -/
structure Segment where
  text : List Char
  kind : Segment.Kind
deriving DecidableEq, Repr

namespace Segment

/-! ## Character classes -/

/-- White space between tokens. -/
def isBlank (c : Char) : Bool :=
  c == ' ' || c == '\t' || c == '\r' || c == '\n' || c == '\x0c'

/-- A character that may begin a name. -/
def isNameStart (c : Char) : Bool :=
  c.isAlpha || c == '_'

/-- A character that may continue a name. -/
def isNamePart (c : Char) : Bool :=
  c.isAlphanum || c == '_'

/-! ## Literals -/

/-- The natural number that decimal digits denote. -/
def decimal (digits : List Char) : Nat :=
  digits.foldl (fun value d => 10 * value + (d.toNat - '0'.toNat)) 0

/-- A run of digits is a number, or too large to be one. -/
def numberKind (digits : List Char) : Kind :=
  let value := decimal digits
  if value ≤ maxInt then .token (.int value) else .hugeInt

/-- What a string literal has after its opening quote: characters of its line other than quotes
and backslashes, or pairs of a backslash and a character of its line, and a closing quote if
one follows. -/
def stringTail : List Char → List Char
  | [] => []
  | ['\\'] => []
  | '\\' :: c :: cs => if c = '\n' then [] else '\\' :: c :: stringTail cs
  | c :: cs => if c = '"' then ['"'] else if c = '\n' then [] else c :: stringTail cs

/-- A character that may stand after a backslash. -/
def isEscape (c : Char) : Bool :=
  c == 'n' || c == 't' || c == '\'' || c == '"' || c == '\\'

/-- Reads what follows an opening quote: whether a closing quote is reached, and whether a bad
escape stands before it. -/
def inspect : List Char → Bool × Bool
  | [] => (false, false)
  | ['\\'] => (false, true)
  | '\\' :: c :: cs =>
    let (closed, bad) := inspect cs
    (closed, !isEscape c || bad)
  | c :: cs => if c = '"' then (true, false) else inspect cs

/-- A string literal, given by what follows its opening quote, is a token or is rejected. -/
def stringKind (tail : List Char) : Kind :=
  match inspect tail with
  | (true, false) => .token (.str (String.ofList ('"' :: tail)))
  | (true, true) => .rejected .badEscape
  | (false, false) => .rejected .unterminated
  | (false, true) => .rejected .unterminatedBadEscape

/-- A word is reserved or a name. -/
def wordKind (word : List Char) : Kind :=
  match Keyword.ofText? (String.ofList word) with
  | some keyword => .token (.keyword keyword)
  | none => .token (.name (String.ofList word))

/-! ## Cutting -/

/-- The kind of the segment that begins with `c`, and the characters of `cs` that belong to
it. -/
def scan (c : Char) (cs : List Char) : Kind × List Char :=
  if isBlank c then
    (.blank, cs.takeWhile isBlank)
  else if isNameStart c then
    let tail := cs.takeWhile isNamePart
    (wordKind (c :: tail), tail)
  else if c.isDigit then
    let tail := cs.takeWhile Char.isDigit
    (numberKind (c :: tail), tail)
  else if c = '"' then
    let tail := stringTail cs
    (stringKind tail, tail)
  else if c = '#' || (c = '/' && cs.head? = some '/') then
    (.comment, cs.takeWhile (· ≠ '\n'))
  else
    match Sign.atStart? (c :: cs) with
    | some sign => (.token (.sign sign), sign.text.toList.tail)
    | none => (.illegal, [])

/-- The segments of a text, in order. -/
def cut : List Char → List Segment
  | [] => []
  | c :: cs =>
    let (kind, tail) := scan c cs
    ⟨c :: tail, kind⟩ :: cut (cs.drop tail.length)
termination_by text => text.length

/-- The token of a segment. -/
def token? (segment : Segment) : Option Token :=
  match segment.kind with
  | .token token => some token
  | .hugeInt => some (.int maxInt)
  | _ => none

/-! ## Nothing is lost -/

theorem stringTail_prefix (cs : List Char) : stringTail cs <+: cs := by
  fun_induction stringTail cs with
  | case1 => exact List.prefix_rfl
  | case2 => exact List.nil_prefix
  | case3 => exact List.nil_prefix
  | case4 c cs h ih => exact List.cons_prefix_cons.2 ⟨rfl, List.cons_prefix_cons.2 ⟨rfl, ih⟩⟩
  | case5 cs => simp
  | case6 => exact List.nil_prefix
  | case7 c cs _ _ _ _ ih => exact List.cons_prefix_cons.2 ⟨rfl, ih⟩

theorem sign_prefix {c : Char} {cs : List Char} {sign : Sign}
    (h : Sign.atStart? (c :: cs) = some sign) : sign.text.toList.tail <+: cs := by
  have found := (List.find?_eq_some_iff_append.1 h).1
  have fits := List.isPrefixOf_iff_prefix.1 found
  cases hs : sign.text.toList with
  | nil => exact List.nil_prefix
  | cons d ds =>
    rw [hs] at fits
    exact (List.cons_prefix_cons.1 fits).2

/-- What belongs to a segment comes next in the text. -/
theorem scan_prefix (c : Char) (cs : List Char) : (scan c cs).2 <+: cs := by
  unfold scan
  split
  · exact List.takeWhile_prefix _
  split
  · exact List.takeWhile_prefix _
  split
  · exact List.takeWhile_prefix _
  split
  · exact stringTail_prefix cs
  split
  · exact List.takeWhile_prefix _
  split
  · exact sign_prefix ‹_›
  · exact List.nil_prefix

/-- The segments of a text make up the text. -/
theorem flatMap_text_cut (text : List Char) : (cut text).flatMap Segment.text = text := by
  fun_induction cut text with
  | case1 => rfl
  | case2 c cs kind tail hscan ih =>
    have hprefix : tail <+: cs := by
      have := scan_prefix c cs
      rwa [hscan] at this
    obtain ⟨rest, rfl⟩ := hprefix
    rw [List.flatMap_cons, ih, List.drop_left]
    rfl

/-- No segment is empty. -/
theorem text_ne_nil_of_mem_cut {text : List Char} {segment : Segment}
    (h : segment ∈ cut text) : segment.text ≠ [] := by
  fun_induction cut text with
  | case1 => cases h
  | case2 c cs kind tail hscan ih =>
    rcases List.mem_cons.1 h with rfl | h
    · exact List.cons_ne_nil _ _
    · exact ih h

end Segment

end NameCheck
