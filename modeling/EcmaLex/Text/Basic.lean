/-!
# Texts

A text is the list of its characters. Offsets into a text count the bytes of its UTF-8 form, so a
text can only be cut at offsets that lie between two characters.
-/

namespace EcmaLex

abbrev Text := List Char

namespace Text

/-- The bytes of the UTF-8 form of a text. -/
def utf8Size : Text → Nat
  | [] => 0
  | c :: t => c.utf8Size + utf8Size t

@[simp] theorem utf8Size_nil : utf8Size [] = 0 := rfl

@[simp] theorem utf8Size_cons (c : Char) (t : Text) :
    utf8Size (c :: t) = c.utf8Size + utf8Size t := rfl

@[simp] theorem utf8Size_append (s t : Text) : utf8Size (s ++ t) = utf8Size s + utf8Size t := by
  induction s with
  | nil => simp
  | cons c s ih => simp [ih, Nat.add_assoc]

/-- The two parts of a text at a byte offset, if the offset lies between two characters. -/
def splitAtByte : Text → Nat → Option (Text × Text)
  | t, 0 => some ([], t)
  | [], _ => none
  | c :: t, n =>
    if n < c.utf8Size then none
    else (splitAtByte t (n - c.utf8Size)).map fun (before, after) => (c :: before, after)

/-- The text from byte offset `start` to byte offset `stop`. -/
def slice? (t : Text) (start stop : Nat) : Option Text :=
  if stop < start then none
  else do
    let (_, after) ← t.splitAtByte start
    let (inside, _) ← after.splitAtByte (stop - start)
    return inside

end Text

end EcmaLex
