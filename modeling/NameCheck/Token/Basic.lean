import NameCheck.Source.Position

/-!
# Tokens

The words, signs, names and literals of the language, with the text of each.  A lexeme is a
token together with the span where it stands.
-/

namespace NameCheck

/-- The reserved words. -/
inductive Keyword where
  | bool_ | int_ | void_ | true_ | false_ | struct_ | cin_ | cout_ | if_ | else_ | while_
  | repeat_ | return_
deriving DecidableEq, Repr

namespace Keyword

/-- How a reserved word is written. -/
def text : Keyword → String
  | .bool_ => "bool"
  | .int_ => "int"
  | .void_ => "void"
  | .true_ => "true"
  | .false_ => "false"
  | .struct_ => "struct"
  | .cin_ => "cin"
  | .cout_ => "cout"
  | .if_ => "if"
  | .else_ => "else"
  | .while_ => "while"
  | .repeat_ => "repeat"
  | .return_ => "return"

/-- All reserved words. -/
def all : List Keyword :=
  [.bool_, .int_, .void_, .true_, .false_, .struct_, .cin_, .cout_, .if_, .else_, .while_,
    .repeat_, .return_]

/-- The reserved word that is written so. -/
def ofText? (text : String) : Option Keyword :=
  all.find? (·.text == text)

end Keyword

/-- The signs: brackets, separators and operators. -/
inductive Sign where
  | lbrace | rbrace | lparen | rparen | semicolon | comma | dot | write | read | plusPlus
  | minusMinus | plus | minus | star | slash | not | and | or | eqEq | notEq | lt | gt | leq
  | geq | assign
deriving DecidableEq, Repr

namespace Sign

/-- How a sign is written. -/
def text : Sign → String
  | .lbrace => "\x7b"
  | .rbrace => "\x7d"
  | .lparen => "("
  | .rparen => ")"
  | .semicolon => ";"
  | .comma => ","
  | .dot => "."
  | .write => "<<"
  | .read => ">>"
  | .plusPlus => "++"
  | .minusMinus => "--"
  | .plus => "+"
  | .minus => "-"
  | .star => "*"
  | .slash => "/"
  | .not => "!"
  | .and => "&&"
  | .or => "||"
  | .eqEq => "=="
  | .notEq => "!="
  | .lt => "<"
  | .gt => ">"
  | .leq => "<="
  | .geq => ">="
  | .assign => "="

/-- All signs, the longer ones first, so that the first one that fits is the longest. -/
def all : List Sign :=
  [.write, .read, .plusPlus, .minusMinus, .and, .or, .eqEq, .notEq, .leq, .geq, .lbrace,
    .rbrace, .lparen, .rparen, .semicolon, .comma, .dot, .plus, .minus, .star, .slash, .not,
    .lt, .gt, .assign]

/-- The longest sign that a text begins with. -/
def atStart? (text : List Char) : Option Sign :=
  all.find? fun sign => sign.text.toList.isPrefixOf text

end Sign

/-- The units that a program is read from.  A string keeps its quotes and escapes as written. -/
inductive Token where
  | keyword (word : Keyword)
  | sign (mark : Sign)
  | name (text : String)
  | int (value : Int)
  | str (raw : String)
  | comment
deriving DecidableEq, Repr

namespace Token

/-- The text of a token. -/
def text : Token → String
  | .keyword w => w.text
  | .sign s => s.text
  | .name n => n
  | .int value => toString value
  | .str raw => raw
  | .comment => "comment"

end Token

/-- A token and the span where it stands. -/
structure Lexeme where
  token : Token
  span : Span
deriving DecidableEq, Repr

end NameCheck
