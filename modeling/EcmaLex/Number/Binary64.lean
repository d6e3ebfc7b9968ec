/-!
# Double precision numbers

A finite number is a significand times a power of two, in units of the least positive number,
`2 ^ -1074`, with a sign. A significand has at most 53 bits, and fewer only if the exponent is zero.
Rounding goes to the nearest number, and from the middle between two to the one with an even
significand.
-/

namespace EcmaLex

inductive Binary64 where
  | finite (negative : Bool) (significand exponent : Nat)
  | infinite (negative : Bool)
  | nan
deriving DecidableEq, Repr

namespace Binary64

/-- The exponent of two of the unit, without its sign. -/
def unitShift : Nat := 1074

/-- The bits of a significand behind its first one. -/
def fractionBits : Nat := 52

/-- The greatest exponent of a finite number. -/
def maxExponent : Nat := 2045

def zero : Binary64 := finite false 0 0

def infinity : Binary64 := infinite false

def isFinite : Binary64 → Bool
  | finite _ _ _ => true
  | _ => false

def neg : Binary64 → Binary64
  | finite s m k => finite (!s) m k
  | infinite s => infinite !s
  | nan => nan

def signBit (negative : Bool) : Nat := if negative then 1 <<< 63 else 0

/-- The bit pattern. Every exponent one higher than zero lends its bit to the first one of the
significand. -/
def bits : Binary64 → Nat
  | finite s m k => signBit s + (k <<< fractionBits) + m
  | infinite s => signBit s + 2047 <<< fractionBits
  | nan => 4095 <<< (fractionBits - 1)

/-- The natural number nearest to a quotient, the even one of two. -/
def divNearestEven (num den : Nat) : Nat :=
  let q := num / den
  let r := num % den
  if 2 * r > den || 2 * r = den && q % 2 = 1 then q + 1 else q

/-- The number nearest to a quotient. -/
def ofRatio (num den : Nat) : Binary64 :=
  let units := num <<< unitShift
  let k := (units / den).log2 - fractionBits
  let m := divNearestEven units (den <<< k)
  let (m, k) := if m = 2 <<< fractionBits then (1 <<< fractionBits, k + 1) else (m, k)
  if k > maxExponent then infinity else finite false m k

/-- The number nearest to `n * 10 ^ e`. The powers of ten that are out of reach for `n` are not
computed. -/
def ofDecimal (n : Nat) (e : Int) : Binary64 :=
  if n = 0 then zero
  else if e ≥ 310 then infinity
  else if e ≤ -(n.log2 + 331 : Int) then zero
  else match e with
    | .ofNat k => ofRatio (n * Nat.pow 10 k) 1
    | .negSucc k => ofRatio n (Nat.pow 10 (k + 1))

/-- The number nearest to `n * 2 ^ e`. The powers of two that are out of reach for `n` are not
computed. -/
def ofBinary (n : Nat) (e : Int) : Binary64 :=
  if n = 0 then zero
  else if e ≥ 1024 then infinity
  else if e ≤ -(n.log2 + 1076 : Int) then zero
  else match e with
    | .ofNat k => ofRatio (n <<< k) 1
    | .negSucc k => ofRatio n (1 <<< (k + 1))

end Binary64

end EcmaLex
