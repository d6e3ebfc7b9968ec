import EcmaLex.Escape
import EcmaLex.Text.CharClass
import EcmaLex.Text.CodePoint
import EcmaLex.Trace

/-!
# Escape sequences

An escape sequence of a string or template is a backslash and what it applies to. A backslash
before a line terminator continues the literal on the next line and stands for nothing. A sequence
that is not valid stands for the backslash and the character behind it.
-/

namespace EcmaLex

open Trace (reads onlyIf noteAt)

inductive EscapeSequence where
  /-- A backslash at the end of the text. -/
  | lone
  | continuation (terminator : Text)
  | char (letter decoded : Char)
  | code (letter : Char) (written : Text) (decoded : Char)
  /-- A letter that may not be escaped, or the letter of a code that names no character. What was
  read as its digits is lost. -/
  | bad (letter : Char) (written : Text)
deriving DecidableEq, Repr

namespace EscapeSequence

/-- The sequence of a code. The code of a character may be missing, or name none. -/
def ofCode (letter : Char) : Option WrittenCode → EscapeSequence
  | none => bad letter []
  | some w =>
    match w.decoded? with
    | some c => code letter w.raw c
    | none => bad letter w.raw

/-- The line terminator at the start of a text that starts with one. -/
def terminatorOf : Text → Text
  | '\r' :: '\n' :: _ => ['\r', '\n']
  | t => t.take 1

/-- The sequence whose text behind the backslash starts the given text. -/
def scan (context : EscapeContext) (t : Text) : EscapeSequence :=
  match t with
  | [] => lone
  | c :: rest =>
    if isLineTerminator c then continuation (terminatorOf t)
    else match Escape.ofChar? context c with
      | some (.char decoded) => char c decoded
      | some .hex => ofCode c (WrittenCode.fixed? 2 rest)
      | some .unicode => ofCode c (WrittenCode.unicode? rest)
      | none => bad c []

def text : EscapeSequence → Text
  | lone => ['\\']
  | continuation terminator => '\\' :: terminator
  | char letter _ => ['\\', letter]
  | code letter written _ => '\\' :: letter :: written
  | bad letter written => '\\' :: letter :: written

def decoded : EscapeSequence → Text
  | lone | continuation _ => []
  | char _ c => [c]
  | code _ _ c => [c]
  | bad letter _ => ['\\', letter]

def isContinuation : EscapeSequence → Bool
  | continuation _ => true
  | _ => false

/-- Remarks on the backslash `n` characters before the cursor. -/
def onBackslash (n : Nat) (remarks : List Remark) : Trace := remarks.map (.note (.back n))

/-- The trace of a sequence, given the remarks on an escaped letter and on a continued line. -/
def trace (onLetter : Char → List Remark) (onContinuation : List Remark) : EscapeSequence → Trace
  | lone => [.read '\\']
  | continuation terminator =>
    reads ('\\' :: terminator) ++ onBackslash (terminator.length + 1) onContinuation
  | char letter _ => .read '\\' :: onBackslash 1 (onLetter letter) ++ [.read letter]
  | code letter written decoded =>
    .read '\\' :: onBackslash 1 (onLetter letter) ++ reads (letter :: written) ++
    onlyIf (isUnnecessaryEscape decoded.toNat)
      (noteAt (.back (written.length + 2)) .unnecessaryEscapement)
  | bad letter written =>
    .read '\\' :: onBackslash 1 (onLetter letter) ++
    noteAt (.back 1) .badEscapement ++ reads (letter :: written)

@[simp] theorem text_onBackslash (n : Nat) (rs : List Remark) : (onBackslash n rs).text = [] := by
  induction rs with
  | nil => rfl
  | cons r rs ih => simpa [onBackslash] using ih

@[simp] theorem text_trace (f : Char → List Remark) (rs : List Remark) (s : EscapeSequence) :
    (s.trace f rs).text = s.text := by
  cases s <;> simp [trace, text]

theorem text_ne_nil (s : EscapeSequence) : s.text ≠ [] := by cases s <;> simp [text]

end EscapeSequence

end EcmaLex
