import EcmaLex.Primitives

/-!
# Words

A word starts with a letter, a dollar sign or a low line, and goes on with the same characters,
digits, marks and the two zero width joiners. Some words are reserved.
-/

namespace EcmaLex

open Primitives (isXidStart isXidContinue)

def isWordStart [Primitives] (c : Char) : Bool := c = '$' || c = '_' || isXidStart c

def isWordPart [Primitives] (c : Char) : Bool :=
  c = '$' || c = '_' || c = '\u200c' || c = '\u200d' || isXidContinue c

theorem isWordPart_of_isWordStart [Primitives] {c : Char} (h : isWordStart c) : isWordPart c := by
  simp only [isWordStart, isWordPart, Bool.or_eq_true] at *
  rcases h with (h | h) | h
  · simp [h]
  · simp [h]
  · simp [Primitives.isXidContinue_of_isXidStart h]

theorem isWordStart_ascii [UnicodePrimitives] {c : Char} (h : c.toNat < 128) :
    isWordStart c = (c = '$' || c = '_' || c.isAlpha) := by
  rw [isWordStart, UnicodePrimitives.isXidStart_ascii h]

theorem isWordPart_ascii [UnicodePrimitives] {c : Char} (h : c.toNat < 128) :
    isWordPart c = (c = '$' || c = '_' || c.isAlphanum) := by
  have hjoiner : c ≠ '\u200c' ∧ c ≠ '\u200d' := by
    constructor <;> (rintro rfl; simp at h)
  rw [isWordPart, UnicodePrimitives.isXidContinue_ascii h]
  simp [hjoiner, Bool.or_comm, Bool.or_left_comm]

/-- An ASCII character that is no part of a word. -/
def isAsciiMark (c : Char) : Bool := c.toNat < 128 && !(c = '$' || c = '_' || c.isAlphanum)

theorem isWordPart_of_isAsciiMark [UnicodePrimitives] {c : Char} (h : isAsciiMark c) :
    isWordPart c = false := by
  obtain ⟨hc, hpart⟩ := Bool.and_eq_true_iff.mp h
  rw [isWordPart_ascii (of_decide_eq_true hc)]
  exact Bool.not_eq_true' _ |>.mp hpart

theorem isWordStart_of_isAsciiMark [UnicodePrimitives] {c : Char} (h : isAsciiMark c) :
    isWordStart c = false := by
  rw [Bool.eq_false_iff]
  intro hstart
  have hpart := isWordPart_of_isWordStart hstart
  simp [isWordPart_of_isAsciiMark h] at hpart

theorem isDigit_of_isWordStart [UnicodePrimitives] {c : Char} (h : isWordStart c) :
    c.isDigit = false := by
  have hall : ∀ n < 58, 48 ≤ n → (Char.ofNat n = '$' || Char.ofNat n = '_' ||
      (Char.ofNat n).isAlpha) = false := by decide
  rw [Bool.eq_false_iff]
  intro hd
  have hcode : 48 ≤ c.toNat ∧ c.toNat ≤ 57 := by
    simpa [Char.isDigit, UInt32.le_iff_toNat_le] using hd
  have hdigit := hall c.toNat (by omega) hcode.1
  rw [Char.ofNat_toNat, ← isWordStart_ascii (by omega), h] at hdigit
  exact absurd hdigit (by decide)

def keywords : List Text :=
  ["break".toList, "case".toList, "catch".toList, "class".toList, "const".toList,
   "continue".toList, "debugger".toList, "default".toList, "delete".toList, "do".toList,
   "else".toList, "enum".toList, "export".toList, "extends".toList, "false".toList,
   "finally".toList, "for".toList, "function".toList, "if".toList, "implements".toList,
   "import".toList, "in".toList, "instanceof".toList, "interface".toList, "let".toList,
   "new".toList, "null".toList, "package".toList, "private".toList, "protected".toList,
   "public".toList, "return".toList, "static".toList, "super".toList, "switch".toList,
   "this".toList, "throw".toList, "true".toList, "try".toList, "typeof".toList, "var".toList,
   "void".toList, "while".toList, "with".toList, "yield".toList]

/-- Whether a word is reserved. The words of the three constant literals are. -/
def isKeyword (word : Text) : Bool := keywords.contains word

end EcmaLex
