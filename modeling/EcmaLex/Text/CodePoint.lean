import EcmaLex.Text.Digits

/-!
# Code points in escapes

The digits of an escape are a fixed number of hexadecimal digits, or, behind `\u`, one to six of
them in braces.
-/

namespace EcmaLex

/-- The code of a character as it is written in an escape: the text from behind the escape letter,
and the digits in it. -/
structure WrittenCode where
  raw : Text
  digits : Text
deriving DecidableEq, Repr

namespace WrittenCode

/-- Exactly `count` hexadecimal digits at the start of a text. -/
def fixed? (count : Nat) (t : Text) : Option WrittenCode :=
  let digits := t.take count
  if digits.length = count && digits.all isHexDigit then some ⟨digits, digits⟩ else none

/-- One to six hexadecimal digits and a closing brace at the start of a text. -/
def braced? (t : Text) : Option WrittenCode :=
  let digits := t.takeWhile isHexDigit
  if !digits.isEmpty && digits.length ≤ 6 && (t.drop digits.length).head? = some '}' then
    some ⟨'{' :: digits ++ ['}'], digits⟩
  else none

/-- The digits of a `\u` escape. -/
def unicode? : Text → Option WrittenCode
  | '{' :: t => braced? t
  | t => fixed? 4 t

def decoded? (w : WrittenCode) : Option Char := decodeHex? w.digits

end WrittenCode

end EcmaLex
