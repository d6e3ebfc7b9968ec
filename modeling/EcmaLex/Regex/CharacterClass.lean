import EcmaLex.Regex.Escape

/-!
# Character classes

The items of a class are hyphens, escapes and other characters. A hyphen is in place at the start
of a class, between the ends of a range and directly behind a range. Anywhere else it looks like a
range that was not meant.
-/

namespace EcmaLex

open Trace (onlyIf noteAt noteHere)

inductive ClassItem where
  | hyphen
  | escape (e : RegexEscape)
  | char (c : Char)
deriving DecidableEq, Repr

/-- What the items read so far leave open. -/
inductive ClassSlot where
  /-- Nothing has been read. -/
  | start
  /-- A range or a class escape is complete. -/
  | settled
  /-- A character that may begin a range. -/
  | literal
  /-- The hyphen of a range, or one that ends the class. -/
  | range
deriving DecidableEq, Repr

namespace ClassItem

def text : ClassItem → Text
  | hyphen => ['-']
  | escape e => e.text
  | char c => [c]

/-- The items up to the end of the class, of the line or of the text. -/
def scan : Text → List ClassItem
  | [] => []
  | c :: t =>
    if c = ']' || isLineTerminator c then []
    else if c = '-' then hyphen :: scan t
    else if c = '\\' then
      let e := RegexEscape.scan t
      escape e :: scan (t.drop (e.text.length - 1))
    else char c :: scan t
termination_by t => t.length
decreasing_by
  · simp
  · simp only [List.length_drop, List.length_cons]; omega
  · simp

/-- The slot behind an item, of which `last` says whether it ends the class. -/
def after (slot : ClassSlot) (last : Bool) : ClassItem → ClassSlot
  | hyphen =>
    match slot with
    | .literal => .range
    | .range => .settled
    | .start | .settled => if last then .range else .literal
  | escape e => if e.isClass || slot = .range then .settled else .literal
  | char _ => if slot = .range then .settled else .literal

/-- The trace of an item that is read in a slot. -/
def trace (slot : ClassSlot) (last : Bool) : ClassItem → Trace
  | hyphen => .read '-' :: onlyIf (slot = .settled && !last) (noteAt (.back 1) (.unescaped '-'))
  | escape e =>
    e.trace ++
    onlyIf (e.isClass && slot = .range) (noteAt (.back e.text.length) (.unescaped '-'))
  | char c =>
    (if c = '[' || c = '^' || c = '/' then noteHere (.unescaped c)
      else onlyIf (isUnsafeChar c) (noteHere .regexControlCharacter)) ++ [.read c]

/-- The trace of the items of a class and of its end. -/
def traces (closed : Bool) (slot : ClassSlot) : List ClassItem → Trace
  | [] =>
    onlyIf closed (.read ']' :: onlyIf (slot = .range) (noteAt (.back 1) (.unescaped '-')))
  | i :: items =>
    let last := items.isEmpty && closed
    i.trace slot last ++ traces closed (i.after slot last) items

end ClassItem

structure CharacterClass where
  negated : Bool
  items : List ClassItem
  closed : Bool
deriving DecidableEq, Repr

namespace CharacterClass

/-- The class whose text behind the opening bracket starts `t`. -/
def scan (t : Text) : CharacterClass :=
  let negated := t.head? = some '^'
  let t := if negated then t.tail else t
  let items := ClassItem.scan t
  let closed := (t.drop (items.flatMap ClassItem.text).length).head? = some ']'
  { negated, items, closed }

def text (k : CharacterClass) : Text :=
  '[' :: (if k.negated then ['^'] else []) ++ k.items.flatMap ClassItem.text ++
  if k.closed then [']'] else []

/-- The trace of the opening of a class. -/
def opening (k : CharacterClass) : Trace :=
  let empty := k.items.isEmpty && k.closed
  .read '[' ::
  if k.negated then .read '^' :: onlyIf empty (noteAt (.back 1) (.unescaped '^'))
  else onlyIf empty (noteAt (.back 1) .emptyClass)

def trace (k : CharacterClass) : Trace := k.opening ++ ClassItem.traces k.closed .start k.items

end CharacterClass

end EcmaLex
