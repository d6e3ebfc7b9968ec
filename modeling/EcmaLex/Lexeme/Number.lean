import EcmaLex.Lexeme.Basic
import EcmaLex.Number.Value
import EcmaLex.Text.Word

/-!
# Numeric literals

A literal with a radix letter takes the digits of its radix. A decimal literal takes digits, a
point with digits on either side of it, and an exponent if at least one digit follows its letter
and sign.
-/

namespace EcmaLex

open Trace (reads onlyIf noteStart)

namespace NumberLiteral

/-- The exponent at the start of a text, or nothing. -/
def exponent : Text → Text
  | [] => []
  | c :: t =>
    let sign := (t.take 1).filter fun s => s = '+' || s = '-'
    let digits := (t.drop sign.length).takeWhile Char.isDigit
    if (c = 'e' || c = 'E') && !digits.isEmpty then c :: sign ++ digits else []

/-- The point at the start of a text and the digits behind it, or nothing. -/
def fraction : Text → Text
  | '.' :: t => '.' :: t.takeWhile Char.isDigit
  | _ => []

/-- The literal at the start of a text. -/
def extent (t : Text) : Text :=
  match NumberForm.announced? t with
  | some form => t.take 2 ++ (t.drop 2).takeWhile (isDigitOf form.radix)
  | none =>
    let integer := t.takeWhile Char.isDigit
    let fraction := fraction (t.drop integer.length)
    integer ++ fraction ++ exponent (t.drop (integer.length + fraction.length))

/-- Whether a text starts with a literal. -/
def begins : Text → Bool
  | '.' :: c :: _ => c.isDigit
  | c :: _ => c.isDigit
  | [] => false

def hasExtraZero : Text → Bool
  | '0' :: c :: _ => c.isDigit
  | _ => false

/-- The remarks on how a literal is written. -/
def spelling (raw : Text) : Trace :=
  match NumberForm.announced? raw with
  | some form => onlyIf (form = .hex) (noteStart (.avoidHexNumber raw) .json)
  | none =>
    onlyIf (hasExtraZero raw) (noteStart (.leadingZeros raw)) ++
    onlyIf (raw.head? = some '.') (noteStart (.leadingDecimalPoint raw)) ++
    onlyIf (raw.getLast? = some '.') (noteStart (.trailingDecimalPoint raw))

/-- Whether a character runs into a number that stands before it. -/
def runsInto [Primitives] (c : Char) : Bool := isWordStart c || c = '\\'

end NumberLiteral

open NumberLiteral in
/-- The numeric literal at the start of a text. -/
def Lexeme.number [Primitives] (t : Text) : Lexeme :=
  let raw := extent t
  let value := numberValue raw
  { value := .number value
    malformed := !value.isFinite
    trace :=
      reads raw ++ spelling raw ++
      onlyIf (!value.isFinite) (noteStart (.badNumber raw)) ++
      onlyIf ((t.drop raw.length).head?.any runsInto) (noteStart (.missingSpaceAfterNumber raw)) }

theorem NumberLiteral.extent_ne_nil {t : Text} (h : NumberLiteral.begins t) :
    NumberLiteral.extent t ≠ [] := by
  match t, h with
  | c :: t, h =>
    unfold NumberLiteral.extent
    split
    · simp
    · by_cases hc : c.isDigit
      · simp [hc]
      · have hp : c = '.' := by
          unfold NumberLiteral.begins at h
          split at h <;> simp_all
        simp [hp, NumberLiteral.fraction]

theorem Lexeme.raw_number_ne_nil [Primitives] {t : Text} (h : NumberLiteral.begins t) :
    (Lexeme.number t).raw ≠ [] := by
  simp [raw, number, NumberLiteral.extent_ne_nil h]

end EcmaLex
