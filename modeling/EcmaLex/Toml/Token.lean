import EcmaLex.Text.CharClass
import EcmaLex.Text.CodePoint

/-!
# Tokens of TOML

A TOML text is cut into tokens before anything else. A pair of carriage return and line feed counts
as a line feed, and a carriage return alone may stand nowhere. A text with a character that starts
no token, or with a string that is not well formed, has no tokens.
-/

namespace EcmaLex.Toml

inductive Token where
  | newline
  | blank (t : Text)
  | comment
  | equals
  | period
  | comma
  | colon
  | plus
  | leftBrace
  | rightBrace
  | leftBracket
  | rightBracket
  /-- A run of the characters that a key may have without quotes. -/
  | bare (t : Text)
  | string (t : Text) (multiline : Bool)
deriving DecidableEq, Repr

/-- A text with a line feed for each pair of a carriage return and a line feed. -/
def foldNewlines : Text → Text
  | [] => []
  | '\r' :: '\n' :: t => '\n' :: foldNewlines t
  | c :: t => c :: foldNewlines t

def isBlank (c : Char) : Bool := c = ' ' || c = '\t'

def isBare (c : Char) : Bool := c.isAlphanum || c = '-' || c = '_'

/-- Whether a character may stand in a comment. -/
def isCommentChar (c : Char) : Bool := c = '\t' || 0x20 ≤ c.toNat

/-- Whether a character may stand in a string. -/
def isStringChar (c : Char) : Bool := isCommentChar c && c ≠ '\x7f'

/-- How a string is written. Double quotes allow escapes. -/
structure Quoting where
  delimiter : Char
  multiline : Bool
deriving DecidableEq, Repr

namespace Quoting

/-- The delimiters that end a string. -/
def width (q : Quoting) : Nat := if q.multiline then 3 else 1

/-- How many delimiters end the string at the start of a text, if it ends there. Up to two more than
needed belong to a string of many lines. -/
def ending? (q : Quoting) (t : Text) : Option Nat :=
  let n := (t.takeWhile (· = q.delimiter)).length
  if n < q.width then none else some (if q.multiline then min n 5 else 1)

/-- The character of a code of `count` digits, and how much of the text behind the backslash the
escape takes. -/
def code? (count : Nat) (t : Text) : Option (Text × Nat) := do
  let w ← WrittenCode.fixed? count t
  let c ← w.decoded?
  return ([c], count + 1)

/-- A backslash before the end of a line, which takes all blanks and newlines behind it. -/
def lineEnd? (t : Text) : Option (Text × Nat) :=
  let blanks := (t.takeWhile isBlank).length
  match t.drop blanks with
  | '\n' :: t =>
    some ([], blanks + 1 + (t.takeWhile fun c => isBlank c || c = '\n').length)
  | _ => none

/-- What the escape stands for whose text behind the backslash starts `t`, and how much of the text
it takes. -/
def escape? (multiline : Bool) (t : Text) : Option (Text × Nat) :=
  match t with
  | '"' :: _ => some (['"'], 1)
  | '\\' :: _ => some (['\\'], 1)
  | 'b' :: _ => some (['\x08'], 1)
  | 'f' :: _ => some (['\x0c'], 1)
  | 'n' :: _ => some (['\n'], 1)
  | 'r' :: _ => some (['\r'], 1)
  | 't' :: _ => some (['\t'], 1)
  | 'u' :: t => code? 4 t
  | 'U' :: t => code? 8 t
  | _ => if multiline then lineEnd? t else none

/-- The value of the string whose text behind the opening delimiters is given, and how much of the
text it takes with its closing ones. -/
def body? (q : Quoting) : Text → Option (Text × Nat)
  | [] => none
  | c :: t =>
    match q.ending? (c :: t) with
    | some n => some (List.replicate (n - q.width) q.delimiter, n)
    | none =>
      if c = '\\' && q.delimiter = '"' then do
        let (decoded, n) ← escape? q.multiline t
        let (rest, m) ← body? q (t.drop n)
        return (decoded ++ rest, 1 + n + m)
      else if isStringChar c || q.multiline && c = '\n' then do
        let (rest, m) ← body? q t
        return (c :: rest, 1 + m)
      else none
termination_by t => t.length
decreasing_by
  · simp only [List.length_drop, List.length_cons]; omega
  · simp

end Quoting

namespace Token

/-- The string behind a delimiter, and how much of the text it takes. A newline directly behind the
opening of a string of many lines is dropped. -/
def string? (delimiter : Char) (t : Text) : Option (Token × Nat) :=
  if t.take 2 = [delimiter, delimiter] then do
    let skipped := if t[2]? = some '\n' then 3 else 2
    let (value, n) ← Quoting.body? ⟨delimiter, true⟩ (t.drop skipped)
    return (string value true, skipped + n)
  else do
    let (value, n) ← Quoting.body? ⟨delimiter, false⟩ t
    return (string value false, n)

/-- The token at the start of the text `c :: t`, and how much of `t` it takes. -/
def scan? (c : Char) (t : Text) : Option (Token × Nat) :=
  match c with
  | '\n' => some (newline, 0)
  | '=' => some (equals, 0)
  | '.' => some (period, 0)
  | ',' => some (comma, 0)
  | ':' => some (colon, 0)
  | '+' => some (plus, 0)
  | '\x7b' => some (leftBrace, 0)
  | '\x7d' => some (rightBrace, 0)
  | '[' => some (leftBracket, 0)
  | ']' => some (rightBracket, 0)
  | '#' => some (comment, (t.takeWhile isCommentChar).length)
  | '"' | '\'' => string? c t
  | _ =>
    if isBlank c then
      let more := t.takeWhile isBlank
      some (blank (c :: more), more.length)
    else if isBare c then
      let more := t.takeWhile isBare
      some (bare (c :: more), more.length)
    else none

/-- The tokens of a text that has no carriage returns before line feeds. -/
def scanAll? : Text → Option (List Token)
  | [] => some []
  | c :: t => do
    let (token, n) ← scan? c t
    let tokens ← scanAll? (t.drop n)
    return token :: tokens
termination_by t => t.length
decreasing_by simp only [List.length_drop, List.length_cons]; omega

/-- The tokens of a text. A byte order mark at its start is no part of it. -/
def ofText? (t : Text) : Option (List Token) :=
  scanAll? (foldNewlines (if t.head? = some byteOrderMark then t.tail else t))

def isBlank : Token → Bool
  | blank _ => true
  | _ => false

/-- Whether a token may stand between two lines, or between the items of an array. -/
def isFiller : Token → Bool
  | blank _ | newline | comment => true
  | _ => false

/-- The key that a token is, if it may be one. -/
def key? : Token → Option Text
  | bare t => some t
  | string t false => some t
  | _ => none

end Token

end EcmaLex.Toml
