import EcmaLex.Number.Numeral
import EcmaLex.Primitives
import EcmaLex.Text.XidContinue
import EcmaLex.Text.XidStart

/-!
# Standard primitives

Words are made of the characters that Unicode has for identifiers, and numerals are converted one
digit after the other.
-/

namespace EcmaLex

theorem separate_xidStart :
    xidStart.Separate unsafeRanges ∧ xidStart.Separate wideBlankRanges := by decide +kernel

/-- No character that starts a word is blank, unsafe or a line terminator. -/
theorem ofChar_of_mem_xidStart {c : Char} (h : xidStart.contains c.toNat) :
    CharClass.ofChar c = .printable := by
  have hne : ∀ d : Char, xidStart.contains d.toNat = false → c ≠ d := by
    rintro d hd rfl
    simp [hd] at h
  have hline : isLineTerminator c = false := by
    simp [isLineTerminator, hne '\n' (by decide +kernel), hne '\r' (by decide +kernel)]
  have hunsafe : isUnsafeChar c = false := separate_xidStart.1.contains_eq_false h
  have hblank := separate_xidStart.2.contains_eq_false h
  simp [CharClass.ofChar, hline, hunsafe, hblank, hne '\t' (by decide +kernel),
    hne ' ' (by decide +kernel), hne byteOrderMark (by decide +kernel)]

/-- The ASCII characters of words. -/
theorem ascii_of_xid {c : Char} (h : c.toNat < 128) :
    xidStart.contains c.toNat = c.isAlpha ∧
      (xidStart.contains c.toNat || xidContinueOnly.contains c.toNat) =
        (c.isAlphanum || c = '_') := by
  have hall : ∀ n < 128, xidStart.contains (Char.ofNat n).toNat = (Char.ofNat n).isAlpha ∧
      (xidStart.contains (Char.ofNat n).toNat || xidContinueOnly.contains (Char.ofNat n).toNat) =
        ((Char.ofNat n).isAlphanum || Char.ofNat n = '_') := by decide +kernel
  have hc := hall c.toNat h
  rwa [Char.ofNat_toNat] at hc

instance UnicodePrimitives.standard : UnicodePrimitives where
  isXidStart c := xidStart.contains c.toNat
  isXidContinue c := xidStart.contains c.toNat || xidContinueOnly.contains c.toNat
  parseDecimal? := signedNumber? 10
  parseDigits? := signedNumber?
  isXidContinue_of_isXidStart := fun h => Bool.or_eq_true_iff.mpr (.inl h)
  isXidStart_ascii := fun h => (ascii_of_xid h).1
  isXidContinue_ascii := fun h => (ascii_of_xid h).2
  ofChar_of_isXidStart := ofChar_of_mem_xidStart

end EcmaLex
