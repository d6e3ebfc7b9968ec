import EcmaLex.Lexeme.Basic
import EcmaLex.Regex.Pattern
import EcmaLex.Text.Word

/-!
# Regular expression literals

A literal is a pattern between slashes on one line, and the flags behind it. Each flag counts once.
-/

namespace EcmaLex

open Trace (onlyIf noteAt noteStart)

namespace RegexFlag

/-- The trace of the letters behind a pattern, with the flags that stand before them. -/
def traces (seen : List RegexFlag) : Text → Trace
  | [] => []
  | c :: t =>
    .read c ::
    match (ofChar? c).filter (!seen.contains ·) with
    | some flag => traces (flag :: seen) t
    | none => noteAt (.back 1) (.invalidRegexFlag c) ++ traces seen t

/-- The flags among some letters, in the order in which flags are listed. -/
def ofLetters (letters : Text) : List RegexFlag := all.filter fun f => letters.contains f.letter

end RegexFlag

/-- The regular expression whose text behind its opening slash starts `t`. -/
def Lexeme.regex [Primitives] (t : Text) : Lexeme :=
  let terms := RegexTerm.scan t
  let pattern := terms.flatMap RegexTerm.text
  let body : Trace :=
    .read '/' :: onlyIf (t.head? = some '=') (noteStart .regexConfusedWithAssign) ++
    RegexTerm.traces 0 false terms
  let depth := RegexTerm.nest 0 terms
  match t.drop pattern.length with
  | '/' :: rest =>
    let letters := rest.takeWhile isWordPart
    let following := (rest.drop letters.length).head?
    { value := .regex pattern (RegexFlag.ofLetters letters)
      trace :=
        body ++ .read '/' :: onlyIf (depth > 0) (noteAt (.back 1) (.unterminatedGroups depth)) ++
        RegexFlag.traces [] letters ++
        onlyIf (following = some '/' || following = some '*') (noteStart .confusingRegex) }
  | _ =>
    { value := .regex pattern []
      malformed := true
      unclosed := true
      trace := body ++ noteStart .unclosedRegex }

end EcmaLex
