import EcmaLex.Number.Binary64
import EcmaLex.Text.Digits

/-!
# Numerals

A numeral is a run of digits with at most one point in it, and an exponent behind a mark, which is
written in the same radix. Its value is rounded to a double, once. In a radix that is a power of two
the digits that do not fit in 64 bits are dropped first.
-/

namespace EcmaLex

structure Numeral where
  /-- The digits before the point. -/
  integer : Text
  /-- The digits behind the point. -/
  fraction : Text
  exponent : Int
deriving DecidableEq, Repr

namespace Numeral

/-- The mark of an exponent, in lower case. It is no digit of the radix. -/
def exponentMark (radix : Nat) : Char := if radix < 15 then 'e' else '^'

/-- The number that a run of at least one digit denotes. -/
def digits? (radix : Nat) (t : Text) : Option Nat :=
  if t.isEmpty || !t.all (isDigitOf radix) then none else some (ofDigits radix t)

/-- The value of an exponent, which may have a sign. -/
def exponent? (radix : Nat) : Text → Option Int
  | '+' :: t => (digits? radix t).map Int.ofNat
  | '-' :: t => (digits? radix t).map fun n => -(n : Int)
  | t => (digits? radix t).map Int.ofNat

/-- The digits behind a point at the start of a text. -/
def fractionAt (radix : Nat) : Text → Text
  | '.' :: t => t.takeWhile (isDigitOf radix)
  | _ => []

/-- Reads a whole text. One side of the point may be empty, but not both. -/
def ofText? (radix : Nat) (t : Text) : Option Numeral :=
  let integer := t.takeWhile (isDigitOf radix)
  let behind := t.drop integer.length
  let fraction := fractionAt radix behind
  let point := if behind.head? = some '.' then 1 else 0
  if integer.isEmpty && fraction.isEmpty then none
  else match behind.drop (point + fraction.length) with
    | [] => some { integer, fraction, exponent := 0 }
    | c :: t =>
      if c.toLower = exponentMark radix then
        (exponent? radix t).map fun exponent => { integer, fraction, exponent }
      else none

/-- The fraction without the zeros at its end. -/
def shortFraction (n : Numeral) : Text := (n.fraction.reverse.dropWhile (· = '0')).reverse

/-- The digits from the first one that is not zero. -/
def digits (n : Numeral) : Text := (n.integer ++ n.shortFraction).dropWhile (· = '0')

/-- The exponent that belongs to the last digit. -/
def scale (n : Numeral) : Int := n.exponent - (n.shortFraction.length : Int)

/-- How many digits of a decimal numeral count by themselves. -/
def maxDigits : Nat := 768

/-- The digits that decide how a decimal numeral is rounded. All that follow the first ones stand
for a single digit that is not zero, whatever they are. -/
def decisive (digits : Text) : Text :=
  if digits.length > maxDigits then digits.take maxDigits ++ ['1'] else digits

def decimalValue (n : Numeral) : Binary64 :=
  let kept := decisive n.digits
  .ofDecimal (ofDigits 10 kept) (n.scale + ((n.digits.length : Int) - (kept.length : Int)))

/-- The number that the digits of a text denote behind `n`, up to the first digit that makes it
exceed 64 bits, and how many digits are left from there. -/
def leading (radix n : Nat) : Text → Nat × Nat
  | [] => (n, 0)
  | c :: t =>
    let m := n * radix + hexValue c
    if m < 1 <<< 64 then leading radix m t else (n, t.length + 1)

/-- The value in a radix that is a power of two. The digits that are dropped do not count, not even
where they would break a tie. -/
def scaledValue (radix : Nat) (n : Numeral) : Binary64 :=
  let (kept, dropped) := leading radix 0 n.digits
  .ofBinary kept (radix.log2 * (n.scale + (dropped : Int)))

def value (radix : Nat) (n : Numeral) : Binary64 :=
  if radix = 10 then n.decimalValue else n.scaledValue radix

end Numeral

/-- The numbers that are written as a word, in either case. -/
def specialNumber? (t : Text) : Option Binary64 :=
  let word := t.map Char.toLower
  if word = "nan".toList then some .nan
  else if word = "inf".toList || word = "infinity".toList then some .infinity
  else none

/-- The number that a text without a sign denotes in a radix. -/
def unsignedNumber? (radix : Nat) (t : Text) : Option Binary64 :=
  (specialNumber? t).or ((Numeral.ofText? radix t).map (Numeral.value radix))

/-- The number that a text denotes in a radix. It may have a sign. -/
def signedNumber? (radix : Nat) : Text → Option Binary64
  | '+' :: t => unsignedNumber? radix t
  | '-' :: t => (unsignedNumber? radix t).map Binary64.neg
  | t => unsignedNumber? radix t

end EcmaLex
