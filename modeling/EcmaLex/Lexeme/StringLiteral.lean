import EcmaLex.Lexeme.Basic
import EcmaLex.Lexeme.EscapeSequence
import EcmaLex.Text.Blank

/-!
# String literals

A string runs to its quote, or to the end of its line or of the text. Its pieces are characters
that stand for themselves and escape sequences.
-/

namespace EcmaLex

open Trace (onlyIf noteHere noteStart)

inductive StringPiece where
  | plain (c : Char)
  | escape (s : EscapeSequence)
deriving DecidableEq, Repr

namespace StringPiece

def text : StringPiece → Text
  | plain c => [c]
  | escape s => s.text

def decoded : StringPiece → Text
  | plain c => [c]
  | escape s => s.decoded

/-- The pieces of the body at the start of a text. -/
def scan (quote : Char) : Text → List StringPiece
  | [] => []
  | c :: t =>
    if c = quote || isLineTerminator c then []
    else if c = '\\' then
      let s := EscapeSequence.scan .script t
      escape s :: scan quote (t.drop (s.text.length - 1))
    else plain c :: scan quote t
termination_by t => t.length
decreasing_by
  · simp only [List.length_drop, List.length_cons]; omega
  · simp

/-- Control characters other than a tab may not stand in a string. -/
def isControl (c : Char) : Bool := c.toNat < 0x20 && c ≠ '\t'

/-- The remarks on an escaped character of a string. -/
def onLetter (quote letter : Char) : List Remark :=
  (EscapeContext.json.issue? letter).toList.map ({ issue := ·, rule := .json }) ++
  if isUnnecessaryQuoteEscape letter quote .script then
    [{ issue := .unnecessaryEscapement, rule := .script }]
  else []

/-- The remarks on a string that continues on the next line. -/
def onContinuation : List Remark :=
  [{ issue := .eolEscapement, rule := .singleLine },
   { issue := .avoidEolEscapement, rule := .jsonMultiline }]

/-- The trace of the pieces of a body, of which `line` is what was read of the current line, the
latest character first. -/
def traces (quote : Char) (line : Text) : List StringPiece → Trace
  | [] => []
  | plain c :: ps =>
    onlyIf (isControl c) (noteHere (.controlCharacterInString line.reverse)) ++
    .read c :: traces quote (c :: line) ps
  | escape s :: ps =>
    s.trace (onLetter quote) onContinuation ++
    traces quote (if s.isContinuation then [] else s.text.reverse ++ line) ps

end StringPiece

namespace StringLiteral

/-- The schemes of URLs that run code. -/
def scriptSchemes : List Text :=
  ["javascript".toList, "jscript".toList, "ecmascript".toList, "vbscript".toList,
   "mocha".toList, "livescript".toList]

/-- Whether a string is a URL that runs code, such as `javascript:void(0)`. -/
def isScriptUrl (value : Text) : Bool :=
  let lower := value.map Char.toLower
  scriptSchemes.any fun scheme =>
    scheme.isPrefixOf lower &&
      ((lower.drop scheme.length).dropWhile isWhiteSpace).head? = some ':'

end StringLiteral

/-- The string whose text behind its opening quote starts `t`. -/
def Lexeme.string (quote : Char) (t : Text) : Lexeme :=
  let pieces := StringPiece.scan quote t
  let value := pieces.flatMap StringPiece.decoded
  let closed := (t.drop (pieces.flatMap StringPiece.text).length).head? = some quote
  { value := .string value
    malformed := !closed
    unclosed := !closed
    trace :=
      onlyIf (quote = '\'') (noteStart .singleQuotedString .json) ++
      .read quote :: StringPiece.traces quote [] pieces ++
      (if closed then [.read quote] else noteStart .unclosedString) ++
      onlyIf (StringLiteral.isScriptUrl value) (noteStart .scriptUrl .scripturl) }

end EcmaLex
