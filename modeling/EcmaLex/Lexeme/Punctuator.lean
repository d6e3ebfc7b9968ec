import EcmaLex.Lexeme.Basic

/-!
# Punctuators

A punctuator is the longest entry of the table that a text starts with. Only the mark of an
optional chain gives way to a question mark if a digit follows, as in `a?.5:b`.
-/

namespace EcmaLex

open Trace (reads onlyIf noteStart)

namespace Punctuator

/-- The punctuators, longer ones first. -/
def table : List Text :=
  [">>>=".toList,
   "!==".toList, "&&=".toList, "**=".toList, "...".toList, "<<=".toList, "===".toList,
   ">>>".toList, ">>=".toList, "??=".toList, "||=".toList,
   "!=".toList, "%=".toList, "&&".toList, "&=".toList, "**".toList, "*=".toList, "++".toList,
   "+=".toList, "--".toList, "-=".toList, "/=".toList, "<<".toList, "<=".toList, "==".toList,
   "=>".toList, ">=".toList, ">>".toList, "?.".toList, "??".toList, "^=".toList, "|=".toList,
   "||".toList,
   "!".toList, "%".toList, "&".toList, "(".toList, ")".toList, "*".toList, "+".toList,
   ",".toList, "-".toList, ".".toList, "/".toList, ":".toList, ";".toList, "<".toList,
   "=".toList, ">".toList, "?".toList, "[".toList, "]".toList, "^".toList, "\x7b".toList,
   "|".toList, "\x7d".toList, "~".toList]

/-- Whether a text starts with a question mark and a number that starts with a point. -/
def isConditional : Text → Bool
  | '?' :: '.' :: c :: _ => c.isDigit
  | _ => false

/-- The punctuator at the start of a text, if there is one. -/
def scan? (t : Text) : Option Text :=
  if isConditional t then some ['?'] else table.find? (·.isPrefixOf t)

end Punctuator

namespace Lexeme

def punctuator (name : Text) : Lexeme := { value := .punctuator name, trace := reads name }

/-- A character that starts no token. It passes for a punctuator. The marks of private names and
decorators are not reported. -/
def unexpected (c : Char) : Lexeme :=
  { value := .punctuator [c]
    malformed := true
    trace :=
      .read c :: onlyIf (c ≠ '#' && c ≠ '@') (noteStart (.unexpectedCharacter c)) }

theorem raw_punctuator_ne_nil {t p : Text} (h : Punctuator.scan? t = some p) :
    (punctuator p).raw ≠ [] := by
  suffices p ≠ [] by simpa [raw, punctuator]
  unfold Punctuator.scan? at h
  split at h
  · simp [← Option.some.inj h]
  · have : ∀ q ∈ Punctuator.table, q ≠ [] := by decide
    exact this p (List.mem_of_find?_eq_some h)

end Lexeme

end EcmaLex
