/-!
# Styled text

Text whose pieces may have a style.  It can be written plainly, without the styles, or for a
terminal, where a styled piece stands between an escape sequence that switches the style on and
one that resets it.
-/

namespace NameCheck.Text

/-- The parameters of the escape sequence that switches a style on. -/
structure Style where
  codes : List Nat
deriving DecidableEq, Repr

namespace Style

def bold : Style := ⟨[1]⟩

def red : Style := ⟨[31]⟩

def green : Style := ⟨[32]⟩

def yellow : Style := ⟨[33]⟩

def boldRed : Style := ⟨[1, 31]⟩

def boldYellow : Style := ⟨[1, 33]⟩

def boldBlue : Style := ⟨[1, 34]⟩

/-- The brighter kind of black. -/
def gray : Style := ⟨[90]⟩

/-- A colour of the palette of 256. -/
def palette (n : Nat) : Style := ⟨[38, 5, n]⟩

/-- The escape sequence that switches a style on. -/
def sequence (style : Style) : List Char :=
  '\x1b' :: '[' :: (";".intercalate (style.codes.map toString)).toList ++ ['m']

/-- The escape sequence that switches all styles off. -/
def reset : List Char := ['\x1b', '[', '0', 'm']

/-- Switches a style on again after every reset inside a text. -/
def reopen (style : Style) : List Char → List Char
  | '\x1b' :: '[' :: '0' :: 'm' :: cs => reset ++ style.sequence ++ reopen style cs
  | c :: cs => c :: reopen style cs
  | [] => []

end Style

/-- A piece of text, with a style or without. -/
structure Run where
  style : Option Style
  text : String
deriving DecidableEq, Repr

namespace Run

/-- A piece for a terminal. -/
def ansi (run : Run) : List Char :=
  match run.style with
  | some style => style.sequence ++ style.reopen run.text.toList ++ Style.reset
  | none => run.text.toList

end Run

/-- A text in pieces. -/
abbrev Styled := List Run

namespace Styled

/-- One piece without a style. -/
def bare (text : String) : Styled := [⟨none, text⟩]

/-- One piece with a style. -/
def styled (style : Style) (text : String) : Styled := [⟨some style, text⟩]

/-- The text alone. -/
def plain (text : Styled) : List Char :=
  text.flatMap fun run => run.text.toList

/-- The text for a terminal. -/
def ansi (text : Styled) : List Char :=
  text.flatMap Run.ansi

/-- The text with its styles, or without them. -/
def render (colors : Bool) (text : Styled) : String :=
  String.ofList (if colors then text.ansi else text.plain)

end Styled

end NameCheck.Text
