import EcmaLex.Text.CharClass
import EcmaLex.Text.Lines
import EcmaLex.Text.Position

/-!
# Sources

A source is a text together with a cursor. The cursor starts behind a leading byte order mark and
behind a shebang line, which are no part of what is read. A byte order mark takes up bytes but no
column. The lines of a source are those of its whole text.
-/

namespace EcmaLex

/-- A place in a text: what is left to read, the bytes before it, and its line and column. -/
structure Cursor where
  rest : Text
  offset : Nat := 0
  position : Position := {}
deriving DecidableEq, Repr

namespace Cursor

/-- The cursor behind the next character, or the same cursor at the end of the text. -/
def advance (k : Cursor) : Cursor :=
  match k.rest with
  | [] => k
  | c :: rest =>
    { rest, offset := k.offset + c.utf8Size, position := k.position.step c rest.head? }

@[simp] theorem rest_advance (k : Cursor) : k.advance.rest = k.rest.tail := by
  unfold advance
  split <;> simp_all

/-- The cursor behind the next `n` characters. -/
def advanceBy (k : Cursor) : Nat → Cursor
  | 0 => k
  | n + 1 => k.advance.advanceBy n

def peek (k : Cursor) : Option Char := k.rest.head?

def peekNth (k : Cursor) (n : Nat) : Option Char := k.rest[n]?

def atEnd (k : Cursor) : Bool := k.rest.isEmpty

def atLineStart (k : Cursor) : Bool := k.position.column = 1

def atLineEnd (k : Cursor) : Bool := k.peek.all isLineTerminator

/-- The cursor before the first character that is to be read. -/
def skipByteOrderMark (t : Text) : Cursor :=
  match t with
  | c :: rest => if c = byteOrderMark then { rest, offset := c.utf8Size } else { rest := t }
  | [] => { rest := t }

end Cursor

/-- The shebang line at the start of a text, if there is one. -/
def shebang? : Text → Option Text
  | '#' :: '!' :: t => some ('#' :: '!' :: t.takeWhile (!isLineTerminator ·))
  | _ => none

structure Source where
  text : Text
  lines : List Line
  shebang : Option Text
  cursor : Cursor
deriving DecidableEq, Repr

namespace Source

def ofText (text : Text) : Source :=
  let start := Cursor.skipByteOrderMark text
  let shebang := shebang? start.rest
  { text, lines := text.lines, shebang,
    cursor := start.advanceBy (shebang.elim 0 List.length) }

/-- The next character and the source behind it. -/
def bump (s : Source) : Option Char × Source :=
  (s.cursor.peek, { s with cursor := s.cursor.advance })

/-- The content of line `n`, counted from one. -/
def line? (s : Source) (n : Nat) : Option Text :=
  if n = 0 then none else (s.lines[n - 1]?).map Line.content

def lineCount (s : Source) : Nat := s.lines.length

def slice? (s : Source) (start stop : Nat) : Option Text := s.text.slice? start stop

end Source

end EcmaLex
