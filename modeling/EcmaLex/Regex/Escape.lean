import EcmaLex.Text.CharClass
import EcmaLex.Trace

/-!
# Escapes in patterns

A backslash in a pattern takes the character behind it, unless the line or the text ends there.
-/

namespace EcmaLex

open Trace (onlyIf noteHere)

structure RegexEscape where
  escaped : Option Char
deriving DecidableEq, Repr

namespace RegexEscape

/-- The letters that may be escaped. -/
def escapableLetters : Text := "bBcdDfknpPrsStuvwWx".toList

/-- The letters of the escapes that stand for a class of characters. -/
def classLetters : Text := "wsdWSD".toList

/-- The escape whose text behind the backslash starts `t`. -/
def scan (t : Text) : RegexEscape := ⟨t.head?.filter (!isLineTerminator ·)⟩

def text (e : RegexEscape) : Text := '\\' :: e.escaped.toList

def isClass (e : RegexEscape) : Bool := e.escaped.any classLetters.contains

/-- Whether a character has no meaning behind a backslash. -/
def isUnexpected (c : Char) : Bool := c = '<' || c.isAlpha && !escapableLetters.contains c

def trace (e : RegexEscape) : Trace :=
  .read '\\' ::
  match e.escaped with
  | none => []
  | some c =>
    (if isUnsafeChar c then noteHere .regexControlCharacter
      else onlyIf (isUnexpected c) (noteHere (.regexUnexpectedEscape c))) ++ [.read c]

end RegexEscape

/-- What a message quotes as found at the start of a text: nothing at the end of a line. -/
def foundAt (t : Text) : Text := (t.take 1).filter (!isLineTerminator ·)

end EcmaLex
