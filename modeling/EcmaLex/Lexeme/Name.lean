import EcmaLex.Context
import EcmaLex.Lexeme.Basic
import EcmaLex.Text.CodePoint
import EcmaLex.Text.Word

/-!
# Names

A name is a run of word characters, each written as itself or as a `\u` escape. An escape that
names no character which may stand there is read but adds nothing to the name.
-/

namespace EcmaLex

open Trace (reads onlyIf noteAt noteStart)

/-- A character of a name, and how it is written. A bad escape stands for none. -/
structure NamePart where
  raw : Text
  char : Option Char
deriving DecidableEq, Repr

namespace NamePart

/-- The escape whose text behind `\u` is `t`. What it may stand for depends on whether the name has
started. -/
def ofEscape [Primitives] (started : Bool) (t : Text) : NamePart :=
  match WrittenCode.unicode? t with
  | some w => ⟨'\\' :: 'u' :: w.raw,
      w.decoded?.filter (if started then isWordPart else isWordStart)⟩
  | none => ⟨['\\', 'u'], none⟩

def trace (p : NamePart) : Trace :=
  reads p.raw ++ onlyIf p.char.isNone (noteAt (.back p.raw.length) .badEscapement)

/-- The parts of the name at the start of a text, of which `started` says whether some character
stands before it. -/
def scan [Primitives] (started : Bool) : Text → List NamePart
  | [] => []
  | c :: t =>
    if c = '\\' && t.head? = some 'u' then
      let part := ofEscape started t.tail
      part :: scan (started || part.char.isSome) (t.drop (part.raw.length - 1))
    else if isWordPart c then ⟨[c], some c⟩ :: scan true t
    else []
termination_by t => t.length
decreasing_by
  · simp only [List.length_drop, List.length_cons]; omega
  · simp

end NamePart

namespace Name

/-- Whether a text starts with a name. -/
def begins [Primitives] : Text → Bool
  | '\\' :: 'u' :: _ => true
  | c :: _ => isWordStart c
  | [] => false

/-- The remarks on a name that stands in a context. -/
def remarks (c : Context) (name : Text) : Trace :=
  onlyIf (name = "hasOwnProperty".toList && !c.afterDot) (noteStart .hasOwnProperty) ++
  onlyIf (name = "__proto__".toList) (noteStart .protoProperty .proto) ++
  onlyIf (name = "__iterator__".toList) (noteStart .iteratorProperty .iterator) ++
  onlyIf c.keyExpected (noteStart (.barewordKey name) .json)

end Name

/-- The name at the start of a text. -/
def Lexeme.name [Primitives] (c : Context) (t : Text) : Lexeme :=
  let parts := NamePart.scan false t
  let name := parts.filterMap NamePart.char
  { value := if isKeyword name then .keyword name else .identifier name
    malformed := parts.any fun p => p.char.isNone
    trace := parts.flatMap NamePart.trace ++ Name.remarks c name }

theorem Lexeme.raw_name_ne_nil [Primitives] (context : Context) {t : Text} (h : Name.begins t) :
    (Lexeme.name context t).raw ≠ [] := by
  match t, h with
  | c :: t, h =>
    unfold Lexeme.name NamePart.scan
    by_cases he : c = '\\' ∧ t.head? = some 'u'
    · simp [he, raw, NamePart.trace, NamePart.ofEscape]
      split <;> simp
    · have hs : isWordStart c := by
        unfold Name.begins at h
        split at h <;> simp_all
      simp [he, isWordPart_of_isWordStart hs, raw, NamePart.trace]

end EcmaLex
