import EcmaLex.Token

/-!
# Contexts

What a token is may depend on the significant tokens before it. A slash divides behind a value and
opens a regular expression elsewhere. A name is a property behind a dot, and a key behind the brace
or comma of an object. Comments never count.
-/

namespace EcmaLex

structure Context where
  /-- The kind and the text of the latest significant token. -/
  previous : Option (TokenKind × Text) := none
  /-- The brackets that are open, the innermost first. -/
  brackets : List Char := []
deriving DecidableEq, Repr

namespace Context

/-- The keywords that are values, so that a slash behind them divides. -/
def valueKeywords : List Text :=
  ["this".toList, "null".toList, "true".toList, "false".toList, "super".toList]

/-- The punctuators that end a value. -/
def valueEnds : List Text := [")".toList, "]".toList, "++".toList, "--".toList]

def regexAllowed (c : Context) : Bool :=
  match c.previous with
  | none => true
  | some (kind, raw) =>
    match kind with
    | .identifier | .number | .string | .regex | .template => false
    | .keyword => !valueKeywords.contains raw
    | .punctuator => !valueEnds.contains raw
    | .comment | .eof => true

def follows (c : Context) (punctuator : Text) : Bool :=
  c.previous = some (.punctuator, punctuator)

def afterDot (c : Context) : Bool := c.follows ['.'] || c.follows ['?', '.']

/-- Whether an object literal expects a key next. -/
def keyExpected (c : Context) : Bool :=
  c.brackets.head? = some '{' && (c.follows ['{'] || c.follows [','])

/-- The open brackets after a punctuator. A closing bracket closes the innermost one, whatever its
shape. -/
def nest (brackets : List Char) : Text → List Char
  | ['{'] => '{' :: brackets
  | ['['] => '[' :: brackets
  | ['('] => '(' :: brackets
  | ['}'] | [']'] | [')'] => brackets.tail
  | _ => brackets

/-- The context behind a significant token. -/
def update (c : Context) (kind : TokenKind) (raw : Text) : Context :=
  { previous := some (kind, raw),
    brackets := if kind = .punctuator then nest c.brackets raw else c.brackets }

end Context

end EcmaLex
