import EcmaLex.Issue
import EcmaLex.Options

/-!
# Checks of whole lines

A line may be too long, may end in blanks, and may mix spaces and tabs in its indentation. Each
check finds at most one issue, at a column of the line.
-/

namespace EcmaLex

namespace LineCheck

def isBlank (c : Char) : Bool := c = ' ' || c = '\t'

/-- The text without the blanks at its end. -/
def trimmed (line : Text) : Text := (line.reverse.dropWhile isBlank).reverse

/-- The number of characters before the first space that a tab follows in the indentation. -/
def spaceBeforeTab? : Text → Option Nat
  | [] => none
  | c :: t =>
    if c = ' ' && t.head? = some '\t' then some 0
    else if isBlank c then (spaceBeforeTab? t).map (· + 1)
    else none

/-- The column at which an indentation is mixed. Spaces behind tabs are fine if smart tabs are
allowed, and if they align the star of a block comment. -/
def mixedIndentation? (smarttabs : Bool) (line : Text) : Option Nat :=
  match spaceBeforeTab? line with
  | some n => some (n + 1)
  | none =>
    let tabs := line.takeWhile (· = '\t')
    let aligned := line.drop tabs.length
    if !smarttabs && !tabs.isEmpty && aligned.head? = some ' ' &&
        (aligned.dropWhile (· = ' ')).head? ≠ some '*' then some tabs.length
    else none

def tooLong (o : Options) (line : Text) : List (Nat × Issue) :=
  match o.maxlen with
  | some maxlen => if line.length > maxlen then [(maxlen + 1, .lineTooLong)] else []
  | none => []

def trailing (o : Options) (line : Text) : List (Nat × Issue) :=
  let kept := (trimmed line).length
  if o.trailing && kept ≠ line.length then [(kept + 1, .trailingWhitespace)] else []

def mixed (o : Options) (line : Text) : List (Nat × Issue) :=
  (mixedIndentation? o.smarttabs line).toList.map ((·, .mixedSpacesAndTabs))

/-- The issues of a line and their columns, in the order in which they are reported. -/
def issues (o : Options) (line : Text) : List (Nat × Issue) :=
  tooLong o line ++ trailing o line ++ mixed o line

/-- The only issues that a line has. -/
theorem eq_of_mem_issues {o : Options} {line : Text} {n : Nat} {i : Issue}
    (h : (n, i) ∈ issues o line) :
    i = .lineTooLong ∨ i = .trailingWhitespace ∨ i = .mixedSpacesAndTabs := by
  simp only [issues, List.mem_append] at h
  rcases h with (h | h) | h
  · unfold tooLong at h
    split at h
    · split at h <;> simp_all
    · simp at h
  · simp only [trailing] at h
    split at h <;> simp_all
  · simp only [mixed, List.mem_map, Prod.mk.injEq] at h
    obtain ⟨_, _, -, rfl⟩ := h
    exact .inr (.inr rfl)

end LineCheck

end EcmaLex
