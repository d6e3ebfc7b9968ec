import EcmaLex.Text.Basic

/-!
# Lines

The lines of a text are its cuts after each line feed, each carriage return, and each pair of the
two in that order. A text that ends in a terminator has an empty last line.
-/

namespace EcmaLex

/-- A line and the terminator that ends it. The last line of a text has none. -/
structure Line where
  content : Text
  terminator : Text
deriving DecidableEq, Repr

namespace Line

def text (l : Line) : Text := l.content ++ l.terminator

def cons (c : Char) (l : Line) : Line := { l with content := c :: l.content }

end Line

namespace Text

def lines : Text → List Line
  | [] => [⟨[], []⟩]
  | '\r' :: '\n' :: t => ⟨[], ['\r', '\n']⟩ :: lines t
  | '\r' :: t => ⟨[], ['\r']⟩ :: lines t
  | '\n' :: t => ⟨[], ['\n']⟩ :: lines t
  | c :: t =>
    match lines t with
    | [] => [⟨[c], []⟩]
    | l :: more => l.cons c :: more

theorem lines_ne_nil (t : Text) : lines t ≠ [] := by
  unfold lines
  split
  · simp
  · simp
  · simp
  · simp
  · split <;> simp

/-- A character that ends no line stands at the start of the first line. -/
theorem exists_lines_cons {c : Char} (hn : c ≠ '\n') (hr : c ≠ '\r') (t : Text) :
    ∃ l more, lines t = l :: more ∧ lines (c :: t) = l.cons c :: more := by
  cases h : lines t with
  | nil => exact absurd h (lines_ne_nil t)
  | cons l more =>
    refine ⟨l, more, rfl, ?_⟩
    unfold lines
    split <;> simp_all

/-- The byte offsets at which lines start, for lines of which the first starts at `offset`. -/
def startsFrom (offset : Nat) : List Line → List Nat
  | [] => []
  | l :: more => offset :: startsFrom (offset + l.text.utf8Size) more

def lineStarts (t : Text) : List Nat := startsFrom 0 t.lines

end Text

end EcmaLex
