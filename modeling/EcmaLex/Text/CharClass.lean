import EcmaLex.Text.CodeRanges

/-!
# Character classes

Every character is printable, blank, a line terminator, a byte order mark or unsafe. Unsafe
characters are the control and formatting characters that show nothing, or differ from one editor
to the next. A byte order mark is unsafe too, but has a class of its own.
-/

namespace EcmaLex

inductive CharClass where
  | printable
  | whitespace
  | lineTerminator
  | unsafeChar
  | bom
deriving DecidableEq, Repr

def isLineTerminator (c : Char) : Bool := c = '\n' || c = '\r'

def unsafeRanges : CodeRanges :=
  [(0x0, 0x8), (0xb, 0xc), (0xe, 0x1f), (0x7f, 0x9f), (0xad, 0xad), (0x600, 0x604),
   (0x70f, 0x70f), (0x17b4, 0x17b5), (0x200c, 0x200f), (0x2028, 0x202f), (0x2060, 0x206f),
   (0xfeff, 0xfeff), (0xfff0, 0xffff)]

def isUnsafeChar (c : Char) : Bool := unsafeRanges.contains c.toNat

/-- The blank characters beside tab and space. -/
def wideBlankRanges : CodeRanges :=
  [(0xa0, 0xa0), (0x1680, 0x1680), (0x2000, 0x200a), (0x205f, 0x205f), (0x3000, 0x3000)]

def byteOrderMark : Char := '\ufeff'

/-- The class of a character wherever it stands. Only a source knows whether a byte order mark
stands at its start. -/
def CharClass.ofChar (c : Char) : CharClass :=
  if isLineTerminator c then .lineTerminator
  else if c = '\t' || c = ' ' then .whitespace
  else if c = byteOrderMark then .bom
  else if isUnsafeChar c then .unsafeChar
  else if wideBlankRanges.contains c.toNat then .whitespace
  else .printable

end EcmaLex
