import EcmaLex.Number.Binary64
import EcmaLex.Text.Basic
import EcmaLex.Text.CharClass

/-!
# Primitives

Two things are taken from elsewhere when a text is read: the characters that start and continue a
word in the scripts of the world, and the conversion of a numeral to a double. Whatever is read
depends on them, but hardly on more of them than that a character that starts a word may continue
one. What starts and ends a word depends on how they treat ASCII, too, and on that no character of
a word is blank.
-/

namespace EcmaLex

class Primitives where
  isXidStart : Char → Bool
  isXidContinue : Char → Bool
  /-- The double that a decimal numeral is converted to, if the text is one. -/
  parseDecimal? : Text → Option Binary64
  /-- The double that digits in a radix are converted to. -/
  parseDigits? : Nat → Text → Option Binary64
  isXidContinue_of_isXidStart : ∀ {c}, isXidStart c → isXidContinue c

/-- Primitives that agree with Unicode on which characters make words. -/
class UnicodePrimitives extends Primitives where
  isXidStart_ascii : ∀ {c : Char}, c.toNat < 128 → isXidStart c = c.isAlpha
  isXidContinue_ascii : ∀ {c : Char}, c.toNat < 128 → isXidContinue c = (c.isAlphanum || c = '_')
  /-- What starts a word can be seen: it is neither blank nor unsafe. -/
  ofChar_of_isXidStart : ∀ {c}, isXidStart c → CharClass.ofChar c = .printable

end EcmaLex
