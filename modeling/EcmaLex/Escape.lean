import EcmaLex.Issue

/-!
# Escapes

The character behind a backslash says what the escape stands for: a character of its own, or one
whose code follows in hexadecimal digits. The table is the same for every literal, except that a
template may also escape a backtick and a dollar sign. Each context has remarks of its own.
-/

namespace EcmaLex

/-- The kind of literal that an escape stands in. -/
inductive EscapeContext where
  | script
  | json
  | template
deriving DecidableEq, Repr

inductive Escape where
  | char (decoded : Char)
  /-- Two hexadecimal digits follow. -/
  | hex
  /-- Four hexadecimal digits follow, or any code point in braces. -/
  | unicode
deriving DecidableEq, Repr

namespace Escape

/-- The escapes that every context allows. -/
def common? : Char → Option Escape
  | 'n' => some (char '\n')
  | 'r' => some (char '\r')
  | 't' => some (char '\t')
  | 'b' => some (char '\x08')
  | 'f' => some (char '\x0c')
  | 'v' => some (char '\x0b')
  | '0' => some (char '\x00')
  | '\\' => some (char '\\')
  | '\'' => some (char '\'')
  | '"' => some (char '"')
  | '/' => some (char '/')
  | 'x' => some hex
  | 'u' => some unicode
  | _ => none

/-- What the character `c` behind a backslash stands for, if it may stand there. -/
def ofChar? (context : EscapeContext) (c : Char) : Option Escape :=
  if context = .template && (c = '\x60' || c = '$') then some (char c) else common? c

end Escape

/-- The issue that a context has with an escape that is valid elsewhere. -/
def EscapeContext.issue? : EscapeContext → Char → Option Issue
  | .json, 'v' => some .avoidVerticalTabEscape
  | .json, 'x' => some .avoidHexEscape
  | .json, '\'' => some .avoidSingleQuoteEscape
  | _, _ => none

/-- A printable ASCII character need not be escaped, unless it is a quote or a backslash. -/
def isUnnecessaryEscape (code : Nat) : Bool :=
  32 ≤ code && code ≤ 126 && code ≠ 34 && code ≠ 39 && code ≠ 92

/-- Whether an escaped quote is not the one that delimits its string. -/
def isUnnecessaryQuoteEscape (c quote : Char) (context : EscapeContext) : Bool :=
  context = .script && (c = '\'' || c = '"') && c ≠ quote

end EcmaLex
