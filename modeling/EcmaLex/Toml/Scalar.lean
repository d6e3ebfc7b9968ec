import EcmaLex.Number.Binary64
import EcmaLex.Toml.Token

/-!
# Numbers and dates of TOML

Numbers and dates are written in bare words, some with points, colons and signs between them. A
number has single low lines between its digits only. Integers fit in 64 bits and floats are finite.
Of a date only the tokens are checked.
-/

namespace EcmaLex.Toml

inductive Scalar where
  | integer (n : Int)
  | float
  | date
deriving DecidableEq, Repr

namespace Scalar

/-- Whether each low line of a run of digits stands between two digits. -/
def separated : Text → Bool
  | [] => false
  | [c] => c ≠ '_'
  | c :: '_' :: t => c ≠ '_' && separated t
  | c :: t => c ≠ '_' && separated t

/-- The digits at the start of a text, and the text behind them. -/
def digits? (radix : Nat) (leadingZeros : Bool) (t : Text) : Option (Text × Text) :=
  let run := t.takeWhile fun c => isDigitOf radix c || c = '_'
  let digits := run.filter (· ≠ '_')
  if separated run && (leadingZeros || digits.length ≤ 1 || digits.head? ≠ some '0') then
    some (digits, t.drop run.length)
  else none

/-- Whether a text starts with a minus sign, and the text behind its sign. -/
def unsigned : Text → Bool × Text
  | '+' :: t => (false, t)
  | '-' :: t => (true, t)
  | t => (false, t)

/-- Whether an integer fits in 64 bits with a sign. -/
def inRange (n : Int) : Bool := -9223372036854775808 ≤ n && n ≤ 9223372036854775807

def integer? (radix : Nat) (t : Text) : Option Scalar := do
  let (negative, t) := if radix = 10 then unsigned t else (false, t)
  let (digits, after) ← digits? radix (radix ≠ 10) t
  let n : Int := ofDigits radix digits
  let n := if negative then -n else n
  if after.isEmpty && inRange n then return integer n else none

/-- The exponent behind the letter of a float, and how many tokens of `ts` it takes. A plus sign
behind the letter is a token of its own. -/
def exponent? (t : Text) (ts : List Token) : Option (Int × Nat) := do
  if t.isEmpty then
    let signs := if ts.head? = some .plus then 1 else 0
    match ts.drop signs with
    | .bare t :: _ =>
      let (digits, after) ← digits? 10 true t
      if after.isEmpty then return (ofDigits 10 digits, signs + 1) else none
    | _ => none
  else
    let (negative, t) := unsigned t
    let (digits, after) ← digits? 10 true t
    let n : Int := ofDigits 10 digits
    if after.isEmpty then return (if negative then -n else n, 0) else none

/-- A float of which `t` stands behind its digits. -/
def finish? (whole fraction t : Text) (ts : List Token) : Option (Scalar × Nat) := do
  let (e, n) ← match t with
    | [] => some (0, 0)
    | c :: t => if c = 'e' || c = 'E' then exponent? t ts else none
  let value := Binary64.ofDecimal (ofDigits 10 (whole ++ fraction)) (e - (fraction.length : Int))
  if value.isFinite then return (float, n) else none

/-- The float that starts with a bare word, and how many tokens behind it belong to it. -/
def float? (t : Text) (fraction : Option Text) (ts : List Token) : Option (Scalar × Nat) := do
  let (whole, after) ← digits? 10 false (unsigned t).2
  match fraction with
  | none => finish? whole [] after ts
  | some fraction =>
    let (fraction, behind) ← digits? 10 true fraction
    if after.isEmpty then finish? whole fraction behind ts else none

/-- The floats that are no numbers of digits. -/
def specialFloats : List Text := ["inf".toList, "-inf".toList, "nan".toList, "-nan".toList]

/-- The number that starts with a bare word, and how many tokens behind it belong to it. -/
def number? (t : Text) (ts : List Token) : Option (Scalar × Nat) :=
  match t with
  | '0' :: 'x' :: digits => (integer? 16 digits).map (·, 0)
  | '0' :: 'o' :: digits => (integer? 8 digits).map (·, 0)
  | '0' :: 'b' :: digits => (integer? 2 digits).map (·, 0)
  | _ =>
    if t.contains 'e' || t.contains 'E' then float? t none ts
    else match ts with
      | .period :: .bare fraction :: ts => (float? t (some fraction) ts).map fun (v, n) => (v, n + 2)
      | .period :: _ => none
      | _ =>
        if specialFloats.contains t then some (float, 0) else (integer? 10 t).map (·, 0)

/-- Whether a bare word starts a date. -/
def startsDate (t : Text) : Bool :=
  let pairs := t.zip t.tail
  t.contains 'T' || t.contains 't' ||
    t.tail.contains '-' && !pairs.contains ('e', '-') && !pairs.contains ('E', '-')

/-- How many tokens a separator and the bare word behind it take. -/
def optional? (separator : Token) : List Token → Option Nat
  | [] => some 0
  | token :: ts =>
    if token = separator then
      match ts with
      | .bare _ :: _ => some 2
      | _ => none
    else some 0

/-- How many tokens the minutes, seconds and offset of a time take. -/
def time? : List Token → Option Nat
  | .bare _ :: .colon :: .bare _ :: ts => do
    let a ← optional? .period ts
    let b ← optional? .plus (ts.drop a)
    let c ← optional? .colon (ts.drop (a + b))
    return 3 + a + b + c
  | _ => none

/-- How many tokens behind the first word of a date belong to it. A single space may stand before
its hour. -/
def date? (colonRead : Bool) (ts : List Token) : Option Nat :=
  let hour := match ts with
    | .blank [' '] :: .bare _ :: _ => 2
    | _ => 0
  if colonRead then (time? (ts.drop hour)).map (hour + ·)
  else match ts.drop hour with
    | .colon :: ts => (time? ts).map (hour + 1 + ·)
    | _ => some hour

/-- The number or date that starts with a bare word, and how many tokens behind it belong to it. -/
def ofBare? (t : Text) (ts : List Token) : Option (Scalar × Nat) :=
  if startsDate t then (date? false ts).map (date, ·)
  else match ts with
    | .colon :: ts => (date? true ts).map fun n => (date, n + 1)
    | _ => number? t ts

end Scalar

end EcmaLex.Toml
