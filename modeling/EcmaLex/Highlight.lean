import EcmaLex.Lexer
import EcmaLex.Primitives.Standard

/-!
# Highlighting

The tokens of a text are painted, each in the style of its kind, and what stands between them is
kept. How a terminal is told to paint is a matter of its own. Whatever is not plain is wrapped in a
control sequence that sets the style and one that resets it.
-/

namespace EcmaLex

inductive Colour where
  | red
  | green
  | yellow
  | purple
  | cyan
  | fixed (n : Fin 256)
deriving DecidableEq, Repr

structure Style where
  colour : Option Colour := none
  bold : Bool := false
  italic : Bool := false
  underline : Bool := false
deriving DecidableEq, Repr

/-- A control sequence that sets the style of what follows. -/
def styleSequence (codes : Text) : Text := '\x1b' :: '[' :: codes ++ ['m']

/-- What stands between the bracket of a control sequence and the letter that ends it. -/
def isStyleCode (c : Char) : Bool := c.isDigit || c = ';'

class Painter where
  paint : Style → Text → Text
  codes : Style → Text
  resetCodes : Text
  paint_plain : ∀ t, paint {} t = t
  paint_of_ne : ∀ {s}, s ≠ {} → ∀ t,
    paint s t = styleSequence (codes s) ++ t ++ styleSequence resetCodes
  isStyleCode_codes : ∀ s, (codes s).all isStyleCode
  isStyleCode_reset : resetCodes.all isStyleCode
  /-- No style is set as styles are reset. -/
  codes_ne_reset : ∀ {s}, s ≠ {} → codes s ≠ resetCodes

/-! ANSI terminals -/

def Colour.codes : Colour → Text
  | red => "31".toList
  | green => "32".toList
  | yellow => "33".toList
  | purple => "35".toList
  | cyan => "36".toList
  | fixed n => "38;5;".toList ++ Nat.toDigits 10 n

theorem Colour.codes_spec (c : Colour) : c.codes.all isStyleCode ∧ 2 ≤ c.codes.length := by
  cases c with
  | fixed n =>
    have hall : ∀ n : Fin 256, (fixed n).codes.all isStyleCode := by decide +kernel
    exact ⟨hall n, by simp [codes]⟩
  | _ => decide

namespace Style

def codes (s : Style) : Text :=
  [';'].intercalate
    ((if s.bold then [['1']] else []) ++ (if s.italic then [['3']] else []) ++
      (if s.underline then [['4']] else []) ++ s.colour.toList.map Colour.codes)

def paint (s : Style) (t : Text) : Text :=
  if s = {} then t else styleSequence s.codes ++ t ++ styleSequence ['0']

theorem isStyleCode_codes (s : Style) : s.codes.all isStyleCode := by
  obtain ⟨c, b, i, u⟩ := s
  cases c with
  | none => revert b i u; decide
  | some c =>
    have hc := (Colour.codes_spec c).1
    cases b <;> cases i <;> cases u <;> simp [codes, List.intercalate, isStyleCode, hc]

theorem codes_ne_reset {s : Style} (h : s ≠ {}) : s.codes ≠ ['0'] := by
  obtain ⟨c, b, i, u⟩ := s
  cases c with
  | none => revert b i u; decide
  | some c =>
    have hc := (Colour.codes_spec c).2
    intro heq
    have hlength := congrArg List.length heq
    -- Where the codes of the colour stand alone, they are two characters at least.
    cases b <;> cases i <;> cases u <;> simp [codes, List.intercalate] at hlength
    omega

end Style

instance Painter.ansi : Painter where
  paint := Style.paint
  codes := Style.codes
  resetCodes := ['0']
  paint_plain := fun _ => rfl
  paint_of_ne := fun h _ => if_neg h
  isStyleCode_codes := Style.isStyleCode_codes
  isStyleCode_reset := rfl
  codes_ne_reset := Style.codes_ne_reset

namespace Token

/-- The style of a token. Names and punctuators are plain. -/
def style (t : Token) : Style :=
  if t.malformed then { colour := some .red, underline := true }
  else match t.kind with
    | .keyword => { colour := some .purple, bold := true }
    | .number => { colour := some .yellow }
    | .string | .template => { colour := some .green }
    | .regex => { colour := some .cyan }
    | .comment => { colour := some (.fixed 8), italic := true }
    | .identifier | .punctuator | .eof => {}

def painted [Painter] (t : Token) : Text := Painter.paint t.style t.raw

end Token

namespace Highlight

/-- Paints the tokens of a text that starts at a byte offset. -/
def paint [Painter] (offset : Nat) (text : Text) : List Token → Text
  | [] => text
  | t :: ts =>
    match text.splitAtByte (t.range.1 - offset) with
    | none => text
    | some (kept, rest) => kept ++ t.painted ++ paint t.range.2 (rest.drop t.raw.length) ts

end Highlight

def highlight [Primitives] [Painter] (text : Text) : Text :=
  Highlight.paint 0 text { Lexer.ofText text {} with withComments := true }.tokens.1

end EcmaLex
