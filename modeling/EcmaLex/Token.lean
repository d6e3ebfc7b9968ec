import EcmaLex.Number.Binary64
import EcmaLex.Text.Position

/-!
# Tokens

A token is a stretch of text with its place, its value and what went wrong with it. Which kind of
token it is can be read off its value.
-/

namespace EcmaLex

inductive TokenKind where
  | identifier
  | keyword
  | punctuator
  | number
  | string
  | regex
  | template
  | comment
  | eof
deriving DecidableEq, Repr

def TokenKind.isLiteral : TokenKind → Bool
  | number | string | regex | template => true
  | _ => false

inductive CommentStyle where
  | line
  | block
deriving DecidableEq, Repr

/-- The block comments that configure a linter, told by the word that their text starts with. -/
inductive Directive where
  | jshint
  | jslint
  | global
  | members
  | exported
deriving DecidableEq, Repr

/-- The directive that the text of a comment starts with. The word ends before the first
character that is no ASCII letter. -/
def Directive.ofBody? (body : Text) : Option Directive :=
  let word := body.takeWhile Char.isAlpha
  if word = "jshint".toList then some jshint
  else if word = "jslint".toList then some jslint
  else if word = "global".toList || word = "globals".toList then some global
  else if word = "members".toList || word = "member".toList then some members
  else if word = "exported".toList then some exported
  else none

inductive RegexFlag where
  | global
  | ignoreCase
  | multiline
  | dotAll
  | unicode
  | sticky
deriving DecidableEq, Repr

namespace RegexFlag

/-- All flags in the order in which they are listed. -/
def all : List RegexFlag := [global, ignoreCase, multiline, dotAll, unicode, sticky]

def letter : RegexFlag → Char
  | global => 'g'
  | ignoreCase => 'i'
  | multiline => 'm'
  | dotAll => 's'
  | unicode => 'u'
  | sticky => 'y'

def ofChar? (c : Char) : Option RegexFlag := all.find? fun f => f.letter = c

/-- The bit that stands for the flag in a set of flags. -/
def bit (f : RegexFlag) : Nat := 1 <<< all.idxOf f

end RegexFlag

/-- What a token means. -/
inductive TokenValue where
  | identifier (name : Text)
  | keyword (name : Text)
  | punctuator (name : Text)
  | number (value : Binary64)
  /-- A string with its escapes resolved. -/
  | string (decoded : Text)
  | regex (pattern : Text) (flags : List RegexFlag)
  /-- The text of a template between its backticks. -/
  | template (body : Text)
  /-- The text of a comment without its delimiters. -/
  | comment (style : CommentStyle) (body : Text) (directive : Option Directive)
  | eof
deriving DecidableEq, Repr

def TokenValue.kind : TokenValue → TokenKind
  | identifier _ => .identifier
  | keyword _ => .keyword
  | punctuator _ => .punctuator
  | number _ => .number
  | string _ => .string
  | regex _ _ => .regex
  | template _ => .template
  | comment _ _ _ => .comment
  | eof => .eof

structure Token where
  raw : Text
  value : TokenValue
  start : Position
  stop : Position
  /-- The byte offsets at which the token starts and stops. -/
  range : Nat × Nat
  /-- A line was left between the previous significant token and this one's end. -/
  newline : Bool
  /-- The token broke a rule of its kind. -/
  malformed : Bool
  /-- The token was cut off by the end of its line or of the text. -/
  unclosed : Bool
deriving DecidableEq, Repr

namespace Token

def kind (t : Token) : TokenKind := t.value.kind

def isEof (t : Token) : Bool := t.kind = .eof

def isComment (t : Token) : Bool := t.kind = .comment

def isPunctuator (t : Token) (name : Text) : Bool := t.kind = .punctuator && t.raw = name

end Token

end EcmaLex
