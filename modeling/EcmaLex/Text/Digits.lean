import EcmaLex.Text.Basic

/-!
# Digits

The value of a digit, of a run of digits in any radix up to sixteen, and the character whose code
is written in hexadecimal. A code is read into a word of 32 bits.
-/

namespace EcmaLex

/-- The value of a hexadecimal digit of either case. -/
def hexValue (c : Char) : Nat :=
  if c ≤ '9' then c.toNat - 48 else if c ≤ 'F' then c.toNat - 55 else c.toNat - 87

def isHexDigit (c : Char) : Bool :=
  '0' ≤ c && c ≤ '9' || 'a' ≤ c && c ≤ 'f' || 'A' ≤ c && c ≤ 'F'

def isDigitOf (radix : Nat) (c : Char) : Bool := isHexDigit c && hexValue c < radix

/-- The number that a run of digits denotes, the most significant digit first. -/
def ofDigits (radix : Nat) (digits : Text) : Nat :=
  digits.foldl (fun n c => n * radix + hexValue c) 0

/-- The character with code `n`. Surrogates and numbers past the last code point have none. -/
def Char.ofCode? (n : Nat) : Option Char :=
  if h : n.isValidChar then some (Char.ofNatAux n h) else none

/-- The number that a text denotes behind `n`, if it is made of digits and no number on the way
takes more than 32 bits. -/
def accumulate? (radix n : Nat) : Text → Option Nat
  | [] => some n
  | c :: t =>
    if isDigitOf radix c && n * radix + hexValue c < 1 <<< 32 then
      accumulate? radix (n * radix + hexValue c) t
    else none

/-- The character whose code a run of hexadecimal digits denotes. -/
def decodeHex? (digits : Text) : Option Char :=
  if digits.isEmpty || !digits.all isHexDigit then none
  else (accumulate? 16 0 digits).bind Char.ofCode?

end EcmaLex
