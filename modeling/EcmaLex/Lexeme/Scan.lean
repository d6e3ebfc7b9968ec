import EcmaLex.Lexeme.Comment
import EcmaLex.Lexeme.Name
import EcmaLex.Lexeme.Number
import EcmaLex.Lexeme.Punctuator
import EcmaLex.Lexeme.Regex
import EcmaLex.Lexeme.StringLiteral
import EcmaLex.Lexeme.Template

/-!
# The next lexeme

Between tokens stand blanks, line terminators, unsafe characters, and closing marks of comments
that were never opened. Behind them, the first characters of a text tell what comes next. Only a
slash needs the context too.
-/

namespace EcmaLex

/-- The trace of what stands before the next token. -/
def gap : Text → Trace
  | [] => []
  | '*' :: '/' :: t => Trace.noteHere .unbegunComment ++ Trace.reads ['*', '/'] ++ gap t
  | c :: t => if CharClass.ofChar c = .printable then [] else .read c :: gap t

namespace Lexeme

/-- The punctuator at the start of the text `c :: t`, or its first character alone. -/
def mark (c : Char) (t : Text) : Lexeme :=
  match Punctuator.scan? (c :: t) with
  | some p => punctuator p
  | none => unexpected c

/-- The lexeme at the start of the text `c :: t`, with no gap before it. -/
def scanCons [Primitives] (context : Context) (c : Char) (t : Text) : Lexeme :=
  if Name.begins (c :: t) then name context (c :: t)
  else if NumberLiteral.begins (c :: t) then number (c :: t)
  else if c = '"' || c = '\'' then string c t
  else if c = '\x60' then template t
  else if c = '/' && t.head? = some '/' then lineComment t.tail
  else if c = '/' && t.head? = some '*' then blockComment t.tail
  else if c = '/' && context.regexAllowed then regex t
  else mark c t

theorem raw_scanCons_ne_nil [Primitives] (context : Context) (c : Char) (t : Text) :
    (scanCons context c t).raw ≠ [] := by
  unfold scanCons
  split
  · exact raw_name_ne_nil context ‹_›
  split
  · exact raw_number_ne_nil ‹_›
  split
  · simp [raw, string]
  split
  · simp [raw, template]
  split
  · simp [raw, lineComment]
  split
  · simp [raw, blockComment]
  split
  · simp only [raw, regex]
    split <;> simp
  · unfold mark
    split
    · exact raw_punctuator_ne_nil ‹_›
    · simp [raw, unexpected]

/-- The lexeme at the start of a text, with no gap before it. -/
def scan [Primitives] (context : Context) : Text → Lexeme
  | [] => eof
  | c :: t => scanCons context c t

end Lexeme

end EcmaLex
