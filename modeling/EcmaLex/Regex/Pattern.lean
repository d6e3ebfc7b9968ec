import EcmaLex.Regex.CharacterClass
import EcmaLex.Regex.Quantifier

/-!
# Patterns

A pattern is a list of terms. A term is an element, and a quantifier if one may stand behind the
element and does. Groups are only counted: a pattern is judged by its elements one after another.
-/

namespace EcmaLex

open Trace (reads onlyIf noteAt noteHere)

/-- What stands behind the parenthesis that opens a group. -/
inductive GroupKind where
  | plain
  | marked (mark : Text)
  /-- A question mark that announces no known kind. -/
  | unknown (found : Text)
deriving DecidableEq, Repr

namespace GroupKind

def text : GroupKind → Text
  | plain => []
  | marked mark => mark
  | unknown _ => ['?']

def trace : GroupKind → Trace
  | plain => []
  | marked mark => reads mark
  | unknown found => .read '?' :: noteHere (.expected ':' found)

/-- The kind at the start of a text. A name that follows an angle bracket is not read with it. -/
def scan : Text → GroupKind
  | '?' :: ':' :: _ => marked ['?', ':']
  | '?' :: '=' :: _ => marked ['?', '=']
  | '?' :: '!' :: _ => marked ['?', '!']
  | '?' :: '<' :: '=' :: _ => marked ['?', '<', '=']
  | '?' :: '<' :: '!' :: _ => marked ['?', '<', '!']
  | '?' :: '<' :: _ => marked ['?', '<']
  | '?' :: t => unknown (foundAt t)
  | _ => plain

end GroupKind

inductive RegexElement where
  | escape (e : RegexEscape)
  | opening (kind : GroupKind)
  | closing
  | bar
  | caret
  | spaces (count : Nat)
  | charClass (k : CharacterClass)
  /-- A character with a meaning of its own where it has none. -/
  | stray (c : Char)
  | char (c : Char)
deriving DecidableEq, Repr

namespace RegexElement

def text : RegexElement → Text
  | escape e => e.text
  | opening kind => '(' :: kind.text
  | closing => [')']
  | bar => ['|']
  | caret => ['^']
  | spaces count => List.replicate count ' '
  | charClass k => k.text
  | stray c => [c]
  | char c => [c]

/-- The element at the start of the text `c :: t`. -/
def scan (c : Char) (t : Text) : RegexElement :=
  match c with
  | '\\' => escape (RegexEscape.scan t)
  | '(' => opening (GroupKind.scan t)
  | ')' => closing
  | '|' => bar
  | '^' => caret
  | ' ' => spaces ((t.takeWhile (· = ' ')).length + 1)
  | '[' => charClass (CharacterClass.scan t)
  | ']' | '\x7d' | '?' | '*' | '+' | '\x7b' => stray c
  | _ => char c

/-- Whether the element matches something, so that a quantifier may follow. -/
def isAtom : RegexElement → Bool
  | escape _ | closing | spaces _ | charClass _ | char _ => true
  | opening _ | bar | caret | stray _ => false

/-- The groups that are open behind an element. -/
def nest (depth : Nat) : RegexElement → Nat
  | opening _ => depth + 1
  | closing => depth - 1
  | _ => depth

/-- The trace of an element with `depth` groups open before it, directly behind an atom or not. -/
def trace (depth : Nat) (behindAtom : Bool) : RegexElement → Trace
  | escape e => e.trace
  | opening kind => .read '(' :: kind.trace
  | closing => .read ')' :: onlyIf (depth = 0) (noteAt (.back 1) (.unescaped ')'))
  | bar => [.read '|']
  | caret => .read '^' :: onlyIf behindAtom (noteAt (.back 1) (.unescaped '^'))
  | spaces count =>
    reads (List.replicate count ' ') ++
    onlyIf (count > 1) (noteAt (.back count) (.regexSpaces count))
  | charClass k => k.trace
  | stray c => .read c :: noteAt (.back 1) (.unescaped c)
  | char c => onlyIf (isUnsafeChar c) (noteHere .regexControlCharacter) ++ [.read c]

end RegexElement

structure RegexTerm where
  element : RegexElement
  quantifier : Option Quantifier
deriving DecidableEq, Repr

namespace RegexTerm

/-- The text of a quantifier that may be absent. -/
def quantifierText (q : Option Quantifier) : Text := q.elim [] Quantifier.text

def text (m : RegexTerm) : Text := m.element.text ++ quantifierText m.quantifier

/-- The terms up to the slash that ends the pattern, or to the end of the line or the text. -/
def scan : Text → List RegexTerm
  | [] => []
  | c :: t =>
    if c = '/' || isLineTerminator c then []
    else
      let element := RegexElement.scan c t
      let t := t.drop (element.text.length - 1)
      let quantifier := if element.isAtom then Quantifier.scan? t else none
      { element, quantifier } :: scan (t.drop (quantifierText quantifier).length)
termination_by t => t.length
decreasing_by simp only [List.length_drop, List.length_cons]; omega

/-- The groups that are open behind some terms. -/
def nest (depth : Nat) : List RegexTerm → Nat
  | [] => depth
  | m :: terms => nest (m.element.nest depth) terms

/-- The trace of terms with `depth` groups open before them, directly behind an atom or not. -/
def traces (depth : Nat) (behindAtom : Bool) : List RegexTerm → Trace
  | [] => []
  | m :: terms =>
    m.element.trace depth behindAtom ++ m.quantifier.elim [] Quantifier.trace ++
    traces (m.element.nest depth) m.element.isAtom terms

end RegexTerm

end EcmaLex
