import EcmaLex.Primitives.Standard
import EcmaLex.Proofs.Regex.BareQuantifier
import EcmaLex.Proofs.Regex.Replacement

/-!
# Escapes of properties

An escape takes up one letter. The braces behind the escape of a property are read like those of a
quantifier that lacks its number, and so they are reported. What follows them no longer stands
behind an atom.
-/

namespace EcmaLex

open RegexTerm (isPlain quantifierText advances_step advances_stray advances_plain)
open Quantifier (bareIssues issuesAt)

def isPropertyLetter (c : Char) : Bool :=
  'a' ≤ c && c ≤ 'z' || 'A' ≤ c && c ≤ 'Z' || c = '_' || c = '='

theorem isPlain_of_isPropertyLetter {c : Char} (hc : isPropertyLetter c) :
    isPlain c ∧ c.isDigit = false := by
  have hascii : ∀ n < 128, isPropertyLetter (Char.ofNat n) →
      isPlain (Char.ofNat n) ∧ (Char.ofNat n).isDigit = false := by
    decide +kernel
  have hlt : c.toNat < 128 := by
    have hle : c ≤ 'z' := by
      simp only [isPropertyLetter, Bool.or_eq_true, Bool.and_eq_true, decide_eq_true_eq] at hc
      rcases hc with ((hc | hc) | rfl) | rfl
      · exact hc.2
      · exact Char.le_trans hc.2 (by decide)
      · decide
      · decide
    exact Nat.lt_of_le_of_lt (UInt32.le_iff_toNat_le.mp hle) (by decide)
  have hplain := hascii c.toNat hlt
  rw [Char.ofNat_toNat] at hplain
  exact hplain hc

namespace StandsFor

variable {o : Options} {p : Char} {name w z : Text}

/-- The opening brace is read as a quantifier without a number, the name and the closing brace as
parts of the pattern. -/
theorem advances_propertyEscape [Primitives] (hp : p = 'p' ∨ p = 'P')
    (hname : ∀ c ∈ name, isPropertyLetter c)
    (hw : quantifierText (Quantifier.scan? (w ++ z)) = w)
    (hwhole : ∀ q, Quantifier.scan? (w ++ z) = some q → q.isBroken = false) (d : Nat) (b : Bool) :
    Advances o d b ('\\' :: p :: '\x7b' :: (name ++ '\x7d' :: w)) z
      (.expectedNumber ((name ++ ['\x7d']).take 1) :: .unescaped '\x7d' :: bareIssues w) d
      false := by
  have hbounds : Quantifier.scan? ('\x7b' :: (name ++ '\x7d' :: w ++ z)) =
      some (.noNumber ((name ++ ['\x7d']).take 1)) := by
    rw [Quantifier.scan?_brace, Quantifier.scanBounds_of_not_digit]
    · cases name with
      | nil => rfl
      | cons c name =>
        have hline := (RegexTerm.isPlain_iff.mp
          (isPlain_of_isPropertyLetter (hname c List.mem_cons_self)).1).2.2.2
        simp [foundAt_cons, hline]
    · cases name with
      | nil => rfl
      | cons c name =>
        simp [(isPlain_of_isPropertyLetter (hname c List.mem_cons_self)).2]
  have hescape : Advances o d b ['\\', p, '\x7b'] (name ++ '\x7d' :: w ++ z)
      [.expectedNumber ((name ++ ['\x7d']).take 1)] d true := by
    have hquantifier : RegexTerm.quantifierOf (.escape ⟨some p⟩)
        (['\x7b'] ++ (name ++ '\x7d' :: w ++ z)) =
        some (.noNumber ((name ++ ['\x7d']).take 1)) := hbounds
    have hscan : ∀ t, RegexElement.scan '\\' ([p] ++ t) = .escape ⟨some p⟩ := by
      rcases hp with rfl | rfl <;> exact fun _ => rfl
    have htrace : Trace.issues o (RegexElement.trace d b (.escape ⟨some p⟩)) = [] := by
      rcases hp with rfl | rfl <;> rfl
    have hstep := advances_step (o := o) (d := d) (b := b) rfl (hscan _) rfl
      (by rw [hquantifier]; rfl)
    rw [hquantifier, htrace] at hstep
    exact hstep
  have hletters := advances_plain (r := '\x7d' :: w ++ z)
    (fun c hc => (isPlain_of_isPropertyLetter (hname c hc)).1) rfl o d true
  have hclosing : Advances o d true ['\x7d'] (w ++ z) [.unescaped '\x7d'] d false :=
    advances_stray (by decide) o d true (w ++ z)
  have hbehind := hclosing.append (Quantifier.advances_bare hw hwhole o d)
  exact hescape.append (hletters.append hbehind)

/-- The escape of a digit is one atom, and what stands behind it its quantifier. -/
theorem propertyEscape [Primitives] (hp : p = 'p' ∨ p = 'P')
    (hname : ∀ c ∈ name, isPropertyLetter c)
    (hw : quantifierText (Quantifier.scan? (w ++ z)) = w)
    (hwhole : ∀ q, Quantifier.scan? (w ++ z) = some q → q.isBroken = false) :
    StandsFor o ('\\' :: p :: '\x7b' :: (name ++ '\x7d' :: w)) ('\\' :: 'd' :: w) z
      (issuesAt (w ++ z) ++ caretIssues true z)
      (.expectedNumber ((name ++ ['\x7d']).take 1) :: .unescaped '\x7d' :: bareIssues w) where
  head? := rfl
  advances := by
    intro d b
    have hescape : Advances o d b ('\\' :: 'd' :: w) z (issuesAt (w ++ z)) d true :=
      (advances_step (w := ['d']) (e := .escape ⟨some 'd'⟩) rfl rfl rfl hw).cast rfl
        (Quantifier.issues_scan? hwhole o)
    exact ⟨d, true, false, _, _, hescape, advances_propertyEscape hp hname hw hwhole d b, rfl,
      (List.append_nil _).symm⟩

end StandsFor

namespace Lexer

/-- The escape of a property takes the place of the escape of a digit. Nothing else changes than
that both braces are reported, and that the quantifier behind them lacks an atom: its marks and
braces are reported, but no longer its bounds or a caret behind it. -/
theorem OpensRegex.trades_propertyEscape [UnicodePrimitives] {l l' : Lexer} {x name w z : Text}
    {p : Char}
    (h : l.OpensRegex (x ++ ('\\' :: 'd' :: (w ++ z))))
    (hatom : HasElement x (.escape ⟨some 'd'⟩) (w ++ z)) (hp : p = 'p' ∨ p = 'P')
    (hname : ∀ c ∈ name, isPropertyLetter c)
    (hw : quantifierText (Quantifier.scan? (w ++ z)) = w)
    (hwhole : ∀ q, Quantifier.scan? (w ++ z) = some q → q.isBroken = false)
    (h' : l'.OpensRegex (x ++ ('\\' :: p :: '\x7b' :: (name ++ '\x7d' :: (w ++ z)))))
    (ho : l'.options = l.options) :
    l.Trades l' (issuesAt (w ++ z) ++ caretIssues true z)
      (.expectedNumber ((name ++ ['\x7d']).take 1) :: .unescaped '\x7d' :: bareIssues w) := by
  obtain ⟨ms, q, ns, hs, hx⟩ := hatom
  have hstands := StandsFor.propertyEscape (o := l.options) hp hname hw hwhole
  have hafter : l'.OpensRegex (x ++ ('\\' :: p :: '\x7b' :: (name ++ '\x7d' :: w) ++ z)) := by
    simpa using h'
  exact OpensRegex.trades h hafter ho hs hx hstands

/-- Behind the braces those of the bounds are reported, and neither the bounds nor the caret. -/
theorem OpensRegex.trades_propertyEscape_of_bounds :
    (start "/a\\d\x7b2,1\x7d^/".toList {} false).OpensRegex
      ['a', '\\', 'd', '\x7b', '2', ',', '1', '\x7d', '^', '/'] ∧
    (start "/a\\p\x7bL\x7d\x7b2,1\x7d^/".toList {} false).OpensRegex
      ['a', '\\', 'p', '\x7b', 'L', '\x7d', '\x7b', '2', ',', '1', '\x7d', '^', '/'] ∧
    (start "/a\\d\x7b2,1\x7d^/".toList {} false).Trades
      (start "/a\\p\x7bL\x7d\x7b2,1\x7d^/".toList {} false)
      [.quantifierBounds 2 1, .unescaped '^']
      [.expectedNumber ['L'], .unescaped '\x7d', .unescaped '\x7b', .unescaped '\x7d'] := by
  have h : (start "/a\\d\x7b2,1\x7d^/".toList {} false).OpensRegex
      ['a', '\\', 'd', '\x7b', '2', ',', '1', '\x7d', '^', '/'] :=
    ⟨rfl, by decide +kernel, by decide +kernel, by decide, by decide⟩
  have h' : (start "/a\\p\x7bL\x7d\x7b2,1\x7d^/".toList {} false).OpensRegex
      ['a', '\\', 'p', '\x7b', 'L', '\x7d', '\x7b', '2', ',', '1', '\x7d', '^', '/'] :=
    ⟨rfl, by decide +kernel, by decide +kernel, by decide, by decide⟩
  have hatom : HasElement ['a'] (.escape ⟨some 'd'⟩) ['\x7b', '2', ',', '1', '\x7d', '^', '/'] :=
    ⟨[⟨.char 'a', none⟩], some (.bounds ['2'] (some ['1']) .closed false), [⟨.caret, none⟩],
      by decide +kernel, rfl⟩
  have hname : ∀ c ∈ ['L'], isPropertyLetter c := by
    intro c hc
    obtain rfl := List.mem_singleton.mp hc
    decide
  have hscan : Quantifier.scan? (['\x7b', '2', ',', '1', '\x7d'] ++ ['^', '/']) =
      some (.bounds ['2'] (some ['1']) .closed false) := by decide +kernel
  have hlost : issuesAt (['\x7b', '2', ',', '1', '\x7d'] ++ ['^', '/']) ++
      caretIssues true ['^', '/'] = [.quantifierBounds 2 1, .unescaped '^'] := by decide +kernel
  have htrades := OpensRegex.trades_propertyEscape (x := ['a']) (z := ['^', '/'])
    (w := ['\x7b', '2', ',', '1', '\x7d']) h hatom (.inl rfl) hname (by rw [hscan]; rfl)
    (fun q hq => Option.some.inj (hscan.symm.trans hq) ▸ rfl) h' rfl
  rw [hlost] at htrades
  exact ⟨h, h', htrades⟩

/-- With broken bounds behind the escape even the extent changes. -/
example : ((start "/\\d\x7b1[/]/".toList {} false).tokens.1.map Token.raw).head? =
      some "/\\d\x7b1[/".toList ∧
    (start "/\\p\x7bL\x7d\x7b1[/]/".toList {} false).tokens.1.map Token.raw =
      ["/\\p\x7bL\x7d\x7b1[/]/".toList, []] := by decide +kernel

/-- Nothing is said of the escape of a digit. Of the escape of a property both braces are reported.
-/
theorem sayings_propertyEscape_ne :
    (start "/\\d/".toList {} false).tokens.2.diagnostics.toList.map Diagnostic.saying = [] ∧
    (start "/\\p\x7bL\x7d/".toList {} false).tokens.2.diagnostics.toList.map Diagnostic.saying =
      [("regex_expected_number", "Expected a number and instead saw 'L'."),
        ("regex_unescaped", "Unescaped '\x7d'.")] := by
  decide +kernel

end Lexer

end EcmaLex
