/-!
# Options

Options choose which defects are reported. They never change how a text is cut into tokens.
-/

namespace EcmaLex

structure Options where
  /-- The text is a JSON document. -/
  json : Bool := false
  /-- Strings may continue on the next line behind a backslash. -/
  multistr : Bool := false
  /-- The most characters a line may have. -/
  maxlen : Option Nat := none
  /-- Blanks at the end of a line are reported. -/
  trailing : Bool := false
  /-- Spaces may follow tabs in an indentation. -/
  smarttabs : Bool := false
  /-- Strings may hold URLs that run code. -/
  scripturl : Bool := false
  /-- The name `__proto__` may be used. -/
  proto : Bool := false
  /-- The name `__iterator__` may be used. -/
  iterator : Bool := false
deriving DecidableEq, Repr

/-- The options of a JSON document. -/
def Options.forJson : Options := { json := true }

end EcmaLex
