import EcmaLex.Primitives
import EcmaLex.Text.Digits

/-!
# Values of numeric literals

A numeric literal is decimal, or binary, octal or hexadecimal with a letter behind its leading
zero, or octal in the old form, a zero followed by octal digits alone. Its value is the one of the
numeral in it, which may have a sign, or may be a word for infinity or for no number. A text that
denotes nothing in its form is taken for a number too great to be finite, and a radix without
digits for no number at all.
-/

namespace EcmaLex

inductive NumberForm where
  | decimal
  | hex
  | binary
  | octal
  | legacyOctal
deriving DecidableEq, Repr

namespace NumberForm

/-- The form that the letter behind a leading zero announces. -/
def ofLetter? (c : Char) : Option NumberForm :=
  if c = 'x' || c = 'X' then some hex
  else if c = 'b' || c = 'B' then some binary
  else if c = 'o' || c = 'O' then some octal
  else none

/-- The form that the first two characters of a text announce. -/
def announced? : Text → Option NumberForm
  | '0' :: c :: _ => ofLetter? c
  | _ => none

def radix : NumberForm → Nat
  | decimal => 10
  | hex => 16
  | binary => 2
  | octal | legacyOctal => 8

def ofText (raw : Text) : NumberForm :=
  match announced? raw with
  | some form => form
  | none =>
    match raw with
    | '0' :: digits =>
      if !digits.isEmpty && digits.all (isDigitOf 8) then legacyOctal else decimal
    | _ => decimal

end NumberForm

/-- A decimal literal with a zero for an integer part that is missing, without a point that has no
fraction behind it, and with the mark of its exponent in lower case. -/
def completeDecimal (raw : Text) : Text :=
  let mantissa := raw.takeWhile fun c => c ≠ 'e' && c ≠ 'E'
  let exponent := raw.drop mantissa.length
  let integer := mantissa.takeWhile (· ≠ '.')
  let fraction := (mantissa.drop integer.length).drop 1
  (if integer.isEmpty then ['0'] else integer) ++
  (if fraction.isEmpty then [] else '.' :: fraction) ++
  (if exponent.isEmpty then [] else 'e' :: exponent.drop 1)

/-- The value of a text behind the letter of a radix. -/
def radixValue [Primitives] (radix : Nat) (t : Text) : Binary64 :=
  if t.isEmpty then .nan else (Primitives.parseDigits? radix t).getD .infinity

def numberValue [Primitives] (raw : Text) : Binary64 :=
  match NumberForm.ofText raw with
  | .decimal => (Primitives.parseDecimal? (completeDecimal raw)).getD .infinity
  | .legacyOctal => radixValue 8 (raw.drop 1)
  | form => radixValue form.radix (raw.drop 2)

end EcmaLex
