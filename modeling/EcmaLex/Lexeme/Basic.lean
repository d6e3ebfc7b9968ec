import EcmaLex.Token
import EcmaLex.Trace

/-!
# Lexemes

A lexeme is a token before it has a place: its value, its faults, and the trace that reading it
leaves. Its text is the text of the trace.
-/

namespace EcmaLex

structure Lexeme where
  value : TokenValue
  trace : Trace
  malformed : Bool := false
  unclosed : Bool := false
deriving DecidableEq, Repr

namespace Lexeme

def raw (l : Lexeme) : Text := l.trace.text

def kind (l : Lexeme) : TokenKind := l.value.kind

def eof : Lexeme := { value := .eof, trace := [] }

end Lexeme

end EcmaLex
