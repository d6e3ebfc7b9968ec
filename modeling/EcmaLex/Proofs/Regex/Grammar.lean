import EcmaLex.Proofs.Regex.Course

/-!
# A grammar of patterns

The grammar derives patterns whose parts all stand in their place: a quantifier behind an atom, a
caret at the start of an alternative or of a class, a hyphen at the start of a class or in a range,
and nothing escaped that need not be. Groups and classes are closed, and classes are not empty.
-/

namespace EcmaLex

open Quantifier (isMark lazyText)
open RegexElement (isOrdinary)
open Text (Inline)

def isMember (c : Char) : Bool := !("][^/\\-".toList.contains c)

def isEscapable (c : Char) : Bool :=
  c ≠ '<' && (!c.isAlpha || RegexEscape.escapableLetters.contains c)

structure IsNumber (digits : Text) : Prop where
  nonempty : digits ≠ []
  digits : digits.all Char.isDigit

inductive IsQuantifier : Text → Prop where
  | mark {c : Char} (hc : isMark c) (isLazy : Bool) : IsQuantifier (c :: lazyText isLazy)
  | exactly {n : Text} (hn : IsNumber n) (isLazy : Bool) :
      IsQuantifier ('\x7b' :: (n ++ '\x7d' :: lazyText isLazy))
  | atLeast {n : Text} (hn : IsNumber n) (isLazy : Bool) :
      IsQuantifier ('\x7b' :: (n ++ ',' :: '\x7d' :: lazyText isLazy))
  | between {n m : Text} (hn : IsNumber n) (hm : IsNumber m)
      (hle : ofDigits 10 n ≤ ofDigits 10 m) (isLazy : Bool) :
      IsQuantifier ('\x7b' :: (n ++ ',' :: (m ++ '\x7d' :: lazyText isLazy)))

inductive IsClassAtom : Text → Prop where
  | char {c : Char} (hc : isMember c) : IsClassAtom [c]
  | escape {c : Char} (hc : isEscapable c) (hclass : c ∉ RegexEscape.classLetters) :
      IsClassAtom ['\\', c]

inductive IsClassItem : Text → Prop where
  | single {a : Text} (ha : IsClassAtom a) : IsClassItem a
  | range {a z : Text} (ha : IsClassAtom a) (hz : IsClassAtom z) : IsClassItem (a ++ '-' :: z)
  | classEscape {c : Char} (hc : c ∈ RegexEscape.classLetters) : IsClassItem ['\\', c]

def classBody (negated hyphen : Bool) (items : List Text) : Text :=
  CharacterClass.caret negated ++ ((if hyphen then ['-'] else []) ++ items.flatten)

inductive PatternPart where
  | disjunction
  | alternative
  | terms
  | atom
deriving DecidableEq, Repr

inductive Derives : PatternPart → Text → Prop where
  | single {a : Text} (ha : Derives .alternative a) : Derives .disjunction a
  | either {a p : Text} (ha : Derives .alternative a) (hp : Derives .disjunction p) :
      Derives .disjunction (a ++ '|' :: p)
  | plain {t : Text} (ht : Derives .terms t) : Derives .alternative t
  | anchored {t : Text} (ht : Derives .terms t) : Derives .alternative ('^' :: t)
  | nil : Derives .terms []
  | term {a q t : Text} (ha : Derives .atom a) (hq : q = [] ∨ IsQuantifier q)
      (ht : Derives .terms t) : Derives .terms (a ++ (q ++ t))
  | char {c : Char} (hc : isOrdinary c) : Derives .atom [c]
  | escape {c : Char} (hc : isEscapable c) : Derives .atom ['\\', c]
  | group {k p : Text} (hk : k = [] ∨ k ∈ GroupKind.marks) (hp : Derives .disjunction p) :
      Derives .atom ('(' :: (k ++ (p ++ [')'])))
  | charClass {negated hyphen : Bool} {items : List Text} (hne : items ≠ [])
      (hitems : ∀ i ∈ items, IsClassItem i) :
      Derives .atom ('[' :: (classBody negated hyphen items ++ [']']))

/-- A pattern of which nothing is to be said. -/
structure IsCleanPattern (p : Text) : Prop where
  derives : Derives .disjunction p
  nonempty : p ≠ []
  safe : ∀ c ∈ p, isUnsafeChar c = false
  inline : Inline p
  spaces : ¬ [' ', ' '] <:+: p
  head : p.head? ≠ some '='

end EcmaLex
