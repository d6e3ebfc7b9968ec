import EcmaLex.Lexeme.Basic
import EcmaLex.Lexeme.EscapeSequence

/-!
# Template literals

A template runs to the backtick that ends it, over any number of lines. A substitution in it may
hold braces, quoted strings, and templates again. What is open at a point is a stack of templates
and braces, the innermost first; the literal ends when the stack is empty.
-/

namespace EcmaLex

open Trace (reads onlyIf noteStart)

/-- A template or a brace that is open. -/
inductive TemplateFrame where
  | template
  | brace
deriving DecidableEq, Repr

inductive TemplatePiece where
  | char (c : Char)
  /-- The mark that opens a substitution. -/
  | substitution
  | escape (s : EscapeSequence)
  /-- A quoted string in a substitution, with its quotes. -/
  | quoted (t : Text)
deriving DecidableEq, Repr

namespace TemplatePiece

def text : TemplatePiece → Text
  | char c => [c]
  | substitution => ['$', '\x7b']
  | escape s => s.text
  | quoted t => t

def trace : TemplatePiece → Trace
  | escape s => s.trace (fun _ => []) []
  | p => reads p.text

@[simp] theorem text_trace (p : TemplatePiece) : p.trace.text = p.text := by
  cases p <;> simp [trace, text]

/-- The rest of a quoted string behind its opening quote, up to its quote or the end of its line. -/
def quotedTail (quote : Char) : Text → Text
  | [] => []
  | c :: t =>
    if isLineTerminator c then []
    else if c = quote then [c]
    else if c = '\\' then
      match t with
      | [] => [c]
      | d :: t => if isLineTerminator d then [c] else c :: d :: quotedTail quote t
    else c :: quotedTail quote t

/-- The piece at the start of the text `c :: t`, directly inside of a frame. -/
def next (frame : TemplateFrame) (c : Char) (t : Text) : TemplatePiece :=
  match frame with
  | .template =>
    if c = '\\' then escape (EscapeSequence.scan .template t)
    else if c = '$' && t.head? = some '\x7b' then substitution
    else char c
  | .brace => if c = '"' || c = '\'' then quoted (c :: quotedTail c t) else char c

/-- What is open behind a piece that stands directly inside of `frame`. -/
def nest (frame : TemplateFrame) (outer : List TemplateFrame) :
    TemplatePiece → List TemplateFrame
  | substitution => .brace :: frame :: outer
  | char c =>
    match frame with
    | .template => if c = '\x60' then outer else frame :: outer
    | .brace =>
      if c = '\x7b' then .brace :: frame :: outer
      else if c = '\x7d' then outer
      else if c = '\x60' then .template :: frame :: outer
      else frame :: outer
  | _ => frame :: outer

/-- The pieces at the start of a text until nothing is open, and whether that is reached. -/
def scan : List TemplateFrame → Text → List TemplatePiece × Bool
  | [], _ => ([], true)
  | _ :: _, [] => ([], false)
  | frame :: outer, c :: t =>
    let piece := next frame c t
    let (pieces, closed) := scan (nest frame outer piece) (t.drop (piece.text.length - 1))
    (piece :: pieces, closed)
termination_by _ t => t.length
decreasing_by simp only [List.length_drop, List.length_cons]; omega

end TemplatePiece

/-- The template whose text behind its opening backtick starts `t`. -/
def Lexeme.template (t : Text) : Lexeme :=
  let (pieces, closed) := TemplatePiece.scan [.template] t
  let body := pieces.flatMap TemplatePiece.text
  { value := .template (if closed then body.dropLast else body)
    malformed := !closed
    unclosed := !closed
    trace :=
      .read '\x60' :: pieces.flatMap TemplatePiece.trace ++
      onlyIf (!closed) (noteStart .unclosedTemplate) }

end EcmaLex
