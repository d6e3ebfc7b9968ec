import EcmaLex.Regex.Escape
import EcmaLex.Text.Digits

/-!
# Quantifiers

A quantifier is a mark or a pair of bounds in braces, and may be lazy. Bounds that do not end with
a brace are skipped up to the next one, or to the end of the pattern.
-/

namespace EcmaLex

open Trace (reads onlyIf noteAt noteHere)

/-- A piece of what is skipped behind broken bounds. -/
inductive SkippedPiece where
  | escape (e : RegexEscape)
  | char (c : Char)
deriving DecidableEq, Repr

namespace SkippedPiece

def text : SkippedPiece → Text
  | escape e => e.text
  | char c => [c]

def trace : SkippedPiece → Trace
  | escape e => e.trace
  | char c => [.read c]

/-- The pieces up to and with the next brace, or before the end of the pattern. -/
def scan : Text → List SkippedPiece
  | [] => []
  | c :: t =>
    if c = '/' || isLineTerminator c then []
    else if c = '\x7d' then [char c]
    else if c = '\\' then
      let e := RegexEscape.scan t
      escape e :: scan (t.drop (e.text.length - 1))
    else char c :: scan t
termination_by t => t.length
decreasing_by
  · simp only [List.length_drop, List.length_cons]; omega
  · simp

end SkippedPiece

/-- What ends a pair of bounds. -/
inductive BoundsEnd where
  | closed
  | broken (found : Text) (skipped : List SkippedPiece)
deriving DecidableEq, Repr

namespace BoundsEnd

def text : BoundsEnd → Text
  | closed => ['\x7d']
  | broken _ skipped => skipped.flatMap SkippedPiece.text

def trace : BoundsEnd → Trace
  | closed => [.read '\x7d']
  | broken found skipped =>
    noteHere (.expected '\x7d' found) ++ skipped.flatMap SkippedPiece.trace

def scan (t : Text) : BoundsEnd :=
  if t.head? = some '\x7d' then closed else broken (foundAt t) (SkippedPiece.scan t)

end BoundsEnd

inductive Quantifier where
  | mark (c : Char) (lazy : Bool)
  /-- A brace without a number behind it. -/
  | noNumber (found : Text)
  /-- The digits of the lower bound, and behind a comma those of the upper one, which may be
  missing. -/
  | bounds (low : Text) (high : Option Text) (ending : BoundsEnd) (lazy : Bool)
deriving DecidableEq, Repr

namespace Quantifier

/-- The greatest bound that can be told from those above it. -/
def maxBound : Nat := (1 <<< 64) - 1

/-- A number, or the greatest bound if it is beyond that. -/
def saturate (n : Nat) : Nat := min n maxBound

/-- The value of a bound. Each product and each sum on the way stays within the greatest bound. -/
def boundValue (digits : Text) : Nat :=
  digits.foldl (fun n c => saturate (saturate (n * 10) + hexValue c)) 0

/-- The question mark of a lazy quantifier. -/
def lazyText (lazy : Bool) : Text := if lazy then ['?'] else []

/-- The comma and the digits behind it. -/
def highText : Option Text → Text
  | none => []
  | some digits => ',' :: digits

def text : Quantifier → Text
  | mark c lazy => c :: lazyText lazy
  | noNumber _ => ['\x7b']
  | bounds low high ending lazy => '\x7b' :: low ++ highText high ++ ending.text ++ lazyText lazy

/-- The upper bound at the start of a text, if a comma stands there. -/
def highAt : Text → Option Text
  | ',' :: t => some (t.takeWhile Char.isDigit)
  | _ => none

/-- The bounds whose text behind the opening brace starts `t`. -/
def scanBounds (t : Text) : Quantifier :=
  let low := t.takeWhile Char.isDigit
  if low.isEmpty then noNumber (foundAt t)
  else
    let t := t.drop low.length
    let high := highAt t
    let t := t.drop (highText high).length
    let ending := BoundsEnd.scan t
    bounds low high ending ((t.drop ending.text.length).head? = some '?')

/-- The quantifier at the start of a text, if there is one. -/
def scan? : Text → Option Quantifier
  | [] => none
  | c :: t =>
    if c = '?' || c = '+' || c = '*' then some (mark c (t.head? = some '?'))
    else if c = '\x7b' then some (scanBounds t)
    else none

/-- The remark on a lower bound above the upper one, `n` characters behind the brace. -/
def order (n : Nat) (low : Text) : Option Text → Trace
  | none | some [] => []
  | some high =>
    onlyIf (boundValue low > boundValue high)
      (noteAt (.back n) (.quantifierBounds (boundValue low) (boundValue high)))

def trace (q : Quantifier) : Trace :=
  match q with
  | mark _ _ => reads q.text
  | noNumber found => .read '\x7b' :: noteHere (.expectedNumber found)
  | bounds low high ending lazy =>
    reads ('\x7b' :: low ++ highText high) ++ ending.trace ++ reads (lazyText lazy) ++
    order q.text.length low high

end Quantifier

end EcmaLex
