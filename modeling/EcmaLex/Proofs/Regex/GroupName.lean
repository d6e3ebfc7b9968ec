import EcmaLex.Primitives.Standard
import EcmaLex.Proofs.Regex.BareQuantifier
import EcmaLex.Proofs.Regex.Replacement
import EcmaLex.Proofs.Spelling

/-!
# Names of groups

The name of a group is read like the pattern in the group, and so it is an atom there. Where a group
that does not capture is given a name, the first things in the group stand behind an atom: what was
a quantifier without an atom has one, and a caret is no longer in its place.
-/

namespace EcmaLex

open RegexTerm (isPlain quantifierText quantifierOf advances_bare advances_step advances_plain)
open Quantifier (bareIssues issuesAt)

theorem isPlain_of_isWordPart [UnicodePrimitives] {c : Char} (hc : isWordPart c)
    (hsafe : isUnsafeChar c = false) :
    isPlain c := by
  have hspecial : ("/\\()|[]\x7b\x7d?*+^ ".toList).all isAsciiMark := by decide
  have hnot : c ∉ "/\\()|[]\x7b\x7d?*+^ ".toList := by
    intro hmem
    simpa [hc] using isWordPart_of_isAsciiMark (List.all_eq_true.mp hspecial c hmem)
  rw [RegexTerm.isPlain_iff, RegexElement.isOrdinary]
  refine ⟨?_, ?_, hsafe, isLineTerminator_of_isWordPart hc⟩
  · simp_all
  · rintro rfl
    exact hnot (by decide)

namespace StandsFor

variable {o : Options} {name w z : Text}

/-- The mark of a named group is read, and then the name as a part of the pattern. -/
theorem advances_groupName [UnicodePrimitives] (hname : isWord name)
    (hsafe : ∀ c ∈ name, isUnsafeChar c = false)
    (hw : quantifierText (Quantifier.scan? (w ++ z)) = w)
    (hwhole : ∀ q, Quantifier.scan? (w ++ z) = some q → q.isBroken = false) (d : Nat) (b : Bool) :
    Advances o d b ("(?<".toList ++ (name ++ '>' :: w)) z (issuesAt (w ++ z)) (d + 1) true := by
  obtain ⟨c, t, rfl⟩ : ∃ c t, name = c :: t := by
    cases name with
    | nil => cases hname
    | cons c t => exact ⟨c, t, rfl⟩
  have hangle : GroupKind.scan ('?' :: '<' :: (c :: t ++ '>' :: w ++ z)) = .marked ['?', '<'] := by
    have hstart : isWordStart c := isWordStart_of_head?_isWord hname c rfl
    refine GroupKind.scan_angle fun e he hhead => ?_
    obtain rfl : c = e := by simpa using hhead
    have hnot : (['=', '!'].all isAsciiMark) := by decide
    simpa [hstart] using isWordStart_of_isAsciiMark (List.all_eq_true.mp hnot c he)
  have hopening : Advances o d b "(?<".toList (c :: t ++ '>' :: w ++ z) [] (d + 1) false :=
    advances_bare (e := .opening (.marked ['?', '<'])) rfl (by rw [← hangle]; rfl) rfl nofun
  have hplain : ∀ e ∈ c :: t, isPlain e := fun e he =>
    isPlain_of_isWordPart (isWordPart_of_mem_isWord hname e he) (hsafe e he)
  have hletters : Advances o (d + 1) false (c :: t) ('>' :: w ++ z) [] (d + 1) true :=
    advances_plain hplain rfl o (d + 1) false
  have hclosing : Advances o (d + 1) true ('>' :: w) z (issuesAt (w ++ z)) (d + 1) true :=
    (advances_step (w := []) (e := .char '>') rfl rfl rfl hw).cast rfl
      (Quantifier.issues_scan? hwhole o)
  have hbehind : Advances o (d + 1) false (c :: t ++ '>' :: w) z (issuesAt (w ++ z)) (d + 1) true :=
    hletters.append hclosing
  exact hopening.append hbehind

/-- A name behind the parenthesis makes an atom of it. -/
theorem groupName [UnicodePrimitives] (hname : isWord name)
    (hsafe : ∀ c ∈ name, isUnsafeChar c = false)
    (hw : quantifierText (Quantifier.scan? (w ++ z)) = w)
    (hwhole : ∀ q, Quantifier.scan? (w ++ z) = some q → q.isBroken = false) :
    StandsFor o ("(?<".toList ++ (name ++ '>' :: w)) ("(?:".toList ++ w) z (bareIssues w)
      (issuesAt (w ++ z) ++ caretIssues true z) where
  head? := rfl
  advances := by
    intro d b
    have hopening : Advances o d b "(?:".toList (w ++ z) [] (d + 1) false :=
      advances_bare (e := .opening (.marked ['?', ':'])) rfl rfl rfl nofun
    have hbare := Quantifier.advances_bare hw hwhole o (d + 1)
    exact ⟨d + 1, false, true, bareIssues w, issuesAt (w ++ z), hopening.append hbare,
      advances_groupName hname hsafe hw hwhole d b, (List.append_nil _).symm, rfl⟩

end StandsFor

namespace Lexer

/-- A group that does not capture is given a name. Nothing else changes than that the quantifier
right behind its parenthesis has an atom: its marks and braces are no longer reported, but its
bounds may be, and a caret behind it is. -/
theorem OpensRegex.trades_groupName [UnicodePrimitives] {l l' : Lexer} {x name w z : Text}
    (h : l.OpensRegex (x ++ ("(?:".toList ++ (w ++ z))))
    (hgroup : HasElement x (.opening (.marked "?:".toList)) (w ++ z))
    (hname : isWord name) (hsafe : ∀ c ∈ name, isUnsafeChar c = false)
    (hw : quantifierText (Quantifier.scan? (w ++ z)) = w)
    (hwhole : ∀ q, Quantifier.scan? (w ++ z) = some q → q.isBroken = false)
    (h' : l'.OpensRegex (x ++ ("(?<".toList ++ name ++ '>' :: (w ++ z))))
    (ho : l'.options = l.options) :
    l.Trades l' (bareIssues w) (issuesAt (w ++ z) ++ caretIssues true z) := by
  obtain ⟨ms, q, ns, hs, hx⟩ := hgroup
  have hstands := StandsFor.groupName (o := l.options) hname hsafe hw hwhole
  have hbefore : l.OpensRegex (x ++ ("(?:".toList ++ w ++ z)) := by rwa [List.append_assoc]
  have hafter : l'.OpensRegex (x ++ ("(?<".toList ++ (name ++ '>' :: w) ++ z)) := by simpa using h'
  have hterms : RegexTerm.scan (x ++ ("(?:".toList ++ w ++ z)) =
      ms ++ ⟨.opening (.marked "?:".toList), q⟩ :: ns := by
    rw [List.append_assoc]
    exact hs
  exact hbefore.trades hafter ho hterms hx hstands

/-- The bounds are a quantifier of the name, and the caret behind them is reported. -/
theorem OpensRegex.trades_groupName_of_bounds :
    (start "/x(?:\x7b2,1\x7d^b)+c/g".toList {} false).OpensRegex "x(?:\x7b2,1\x7d^b)+c/g".toList ∧
    (start "/x(?<n>\x7b2,1\x7d^b)+c/g".toList {} false).OpensRegex
      "x(?<n>\x7b2,1\x7d^b)+c/g".toList ∧
    (start "/x(?:\x7b2,1\x7d^b)+c/g".toList {} false).Trades
      (start "/x(?<n>\x7b2,1\x7d^b)+c/g".toList {} false)
      [.unescaped '\x7b', .unescaped '\x7d'] [.quantifierBounds 2 1, .unescaped '^'] := by
  have h : (start "/x(?:\x7b2,1\x7d^b)+c/g".toList {} false).OpensRegex
      "x(?:\x7b2,1\x7d^b)+c/g".toList :=
    ⟨rfl, by decide +kernel, by decide +kernel, by decide, by decide⟩
  have h' : (start "/x(?<n>\x7b2,1\x7d^b)+c/g".toList {} false).OpensRegex
      "x(?<n>\x7b2,1\x7d^b)+c/g".toList :=
    ⟨rfl, by decide +kernel, by decide +kernel, by decide, by decide⟩
  have hgroup : HasElement "x".toList (.opening (.marked "?:".toList))
      "\x7b2,1\x7d^b)+c/g".toList :=
    ⟨[⟨.char 'x', none⟩], none,
      [⟨.stray '\x7b', none⟩, ⟨.char '2', none⟩, ⟨.char ',', none⟩, ⟨.char '1', none⟩,
        ⟨.stray '\x7d', none⟩, ⟨.caret, none⟩, ⟨.char 'b', none⟩,
        ⟨.closing, some (.mark '+' false)⟩, ⟨.char 'c', none⟩], by decide +kernel, by decide⟩
  have hname : isWord "n".toList := by decide +kernel
  have hsafe : ∀ c ∈ "n".toList, isUnsafeChar c = false := by
    intro c hc
    obtain rfl := List.mem_singleton.mp hc
    decide
  have hscan : Quantifier.scan? ("\x7b2,1\x7d".toList ++ "^b)+c/g".toList) =
      some (.bounds ['2'] (some ['1']) .closed false) := by decide +kernel
  exact ⟨h, h', OpensRegex.trades_groupName (x := "x".toList) (w := "\x7b2,1\x7d".toList)
    (z := "^b)+c/g".toList) h hgroup hname hsafe (hscan ▸ rfl)
    (fun q hq => Option.some.inj (hscan.symm.trans hq) ▸ rfl) h' rfl⟩

/-- With broken bounds behind its parenthesis even the extent changes. -/
example : (lex "/(?:\x7b1[/]/".toList {}).tokens.map Token.raw = ["/(?:\x7b1[/]/".toList, []] ∧
    ((lex "/(?<n>\x7b1[/]/".toList {}).tokens.map Token.raw).head? =
      some "/(?<n>\x7b1[/".toList := by decide +kernel

end Lexer

/-- The caret at the start of a group that does not capture is in its place. It is reported as soon
as the group has a name. -/
theorem Lexed.sayings_groupName_ne :
    (lex "/(?:^a)/".toList {}).diagnostics.map Diagnostic.saying = [] ∧
    (lex "/(?<n>^a)/".toList {}).diagnostics.map Diagnostic.saying =
      [("regex_unescaped", "Unescaped '^'.")] := by
  decide +kernel

end EcmaLex
