import EcmaLex.Proofs.Cuts
import EcmaLex.Proofs.LineEnds.Text
import EcmaLex.Proofs.Preamble

/-!
# Lexemes and line ends

Names, numbers, regular expressions, line comments and marks stay on their line. Strings, templates
and block comments may go over several lines, but none of them ends between a carriage return and
the line feed that belongs to it.
-/

namespace EcmaLex

open Text (Inline Apart inline_append inline_cons inline_nil inline_takeWhile)

theorem isLineTerminator_of_isHexDigit {c : Char} (h : isHexDigit c) :
    isLineTerminator c = false := isLineTerminator_of_pos (by decide) (by decide) h

theorem isLineTerminator_of_isWordPart [UnicodePrimitives] {c : Char} (h : isWordPart c) :
    isLineTerminator c = false :=
  isLineTerminator_of_pos (isWordPart_of_isAsciiMark (by decide))
    (isWordPart_of_isAsciiMark (by decide)) h

theorem isLineTerminator_of_isDigitOf {radix : Nat} {c : Char} (h : isDigitOf radix c) :
    isLineTerminator c = false := by
  simp only [isDigitOf, Bool.and_eq_true] at h
  exact isLineTerminator_of_isHexDigit h.1

namespace Text

theorem inline_leadingMark (t : Text) : Inline t.leadingMark := by
  rw [leadingMark_eq]
  split <;> decide

theorem inline_shebang? (t : Text) : Inline ((shebang? t).getD []) := by
  rw [shebang?_eq]
  split
  · exact inline_takeWhile (by simp) t
  · exact inline_nil

theorem inline_preamble (t : Text) : Inline t.preamble :=
  (inline_append _ _).mpr ⟨inline_leadingMark t, inline_shebang? _⟩

end Text

namespace WrittenCode

theorem inline_fixed? {n : Nat} {t : Text} {w : WrittenCode} (h : fixed? n t = some w) :
    Inline w.raw := by
  simp only [fixed?, Option.ite_none_right_eq_some, Option.some.injEq, Bool.and_eq_true,
    List.all_eq_true] at h
  rw [← h.2]
  exact fun c hc => isLineTerminator_of_isHexDigit (h.1.2 c hc)

theorem inline_unicode? {t : Text} {w : WrittenCode} (h : unicode? t = some w) : Inline w.raw := by
  unfold unicode? at h
  split at h
  · obtain ⟨t', rfl, hraw, -, -, hhex⟩ := braced?_eq_some h
    rw [hraw, inline_append, inline_cons]
    exact ⟨⟨rfl, fun c hc => isLineTerminator_of_isHexDigit (hhex c hc)⟩, by decide⟩
  · exact inline_fixed? h

theorem inline_elim_fixed? (n : Nat) (t : Text) : Inline ((fixed? n t).elim [] raw) := by
  cases h : fixed? n t with
  | none => exact inline_nil
  | some w => exact inline_fixed? h

theorem inline_elim_unicode? (t : Text) : Inline ((unicode? t).elim [] raw) := by
  cases h : unicode? t with
  | none => exact inline_nil
  | some w => exact inline_unicode? h

end WrittenCode

namespace NamePart

theorem inline_step [UnicodePrimitives] {started : Bool} {c : Char} {t : Text}
    (h : begins (c :: t)) :
    Inline (step started c t).raw := by
  rcases begins_cases h with ⟨t, rfl, rfl⟩ | ⟨hc, hne⟩
  · rw [step_escape, raw_ofEscape, inline_cons, inline_cons]
    exact ⟨rfl, rfl, WrittenCode.inline_elim_unicode? t⟩
  · rw [step_char hne, inline_cons]
    exact ⟨isLineTerminator_of_isWordPart hc, inline_nil⟩

end NamePart

theorem NumberLiteral.inline_fraction (t : Text) : Inline (fraction t) := by
  unfold fraction
  split
  · exact (inline_cons _ _).mpr
      ⟨rfl, inline_takeWhile (fun _ => isLineTerminator_of_isDigit) _⟩
  · exact inline_nil

theorem NumberLiteral.inline_exponent (t : Text) : Inline (exponent t) := by
  by_cases h : exponent t = []
  · rw [h]
    exact inline_nil
  · obtain ⟨c, s, d, t, rfl, hc, hs, hd⟩ := exponent_cases h
    rw [exponent_eq_of_isSign hc hs hd, inline_cons, inline_append]
    refine ⟨?_, ?_, inline_takeWhile (fun _ => isLineTerminator_of_isDigit) _⟩
    · rcases hc with rfl | rfl <;> rfl
    · rcases hs with rfl | rfl | rfl <;> decide

theorem NumberLiteral.inline_extent (t : Text) : Inline (extent t) := by
  cases hn : NumberForm.announced? t with
  | some form =>
    obtain ⟨c, t, rfl, hc⟩ := announced?_eq_some hn
    rw [extent_announced hc, inline_cons, inline_cons]
    refine ⟨rfl, ?_, inline_takeWhile (fun _ => isLineTerminator_of_isDigitOf) _⟩
    exact isLineTerminator_of_pos (p := fun c => (NumberForm.ofLetter? c).isSome) rfl rfl
      (by simp [hc])
  | none =>
    simp only [extent, hn, inline_append]
    exact ⟨⟨inline_takeWhile (fun _ => isLineTerminator_of_isDigit) t, inline_fraction _⟩,
      inline_exponent _⟩

theorem inline_foundAt (t : Text) : Inline (foundAt t) := by
  intro c hc
  simpa using (List.mem_filter.mp hc).2

theorem RegexEscape.inline_scan (t : Text) : Inline (scan t).text := by
  rw [text_scan, inline_cons]
  exact ⟨rfl, inline_foundAt t⟩

theorem ClassItem.inline_step {c : Char} (hc : isLineTerminator c = false) (t : Text) :
    Inline (step c t).text := by
  unfold step
  split
  · decide
  · split
    · exact RegexEscape.inline_scan t
    · simpa [text] using hc

theorem CharacterClass.inline_scan (t : Text) : Inline (scan t).text := by
  have hitems : ∀ t, ∀ i ∈ ClassItem.scan t, Inline i.text := by
    intro t
    apply ClassItem.pieceScan.forall_mem (P := fun i => Inline i.text) _ () t
    intro _ c t hs
    apply ClassItem.inline_step
    simp only [ClassItem.stopsAt, List.head?_cons, Option.all_some, Bool.or_eq_false_iff] at hs
    exact hs.2
  rw [text_eq, inline_cons, inline_append, inline_append, Text.inline_flatMap]
  refine ⟨rfl, ?_, hitems _, ?_⟩
  · unfold caret
    split <;> decide
  · split <;> decide

theorem SkippedPiece.inline_scan (t : Text) : Inline ((scan t).flatMap text) := by
  rw [Text.inline_flatMap]
  apply pieceScan.forall_mem (P := fun p => Inline p.text) _ false t
  intro closed c t hs
  simp only [stopsAt, List.head?_cons, Option.all_some, Bool.or_eq_false_iff] at hs
  unfold step
  split
  · exact RegexEscape.inline_scan t
  · simpa [text] using hs.2.2

theorem Quantifier.inline_scanBounds (t : Text) : Inline (scanBounds t).text := by
  by_cases hl : t.takeWhile Char.isDigit = []
  · rw [scanBounds_of_not_digit hl]
    exact (inline_cons _ _).mpr ⟨rfl, inline_nil⟩
  · obtain ⟨low, high, ending, r, h⟩ := exists_bounds t
    have hdigits : ∀ t : Text, Inline (t.takeWhile Char.isDigit) :=
      inline_takeWhile fun _ => isLineTerminator_of_isDigit
    rw [h.scan_eq (h.low ▸ hl), text, inline_append, inline_append, inline_append, inline_cons]
    refine ⟨⟨⟨⟨rfl, h.low ▸ hdigits t⟩, ?_⟩, ?_⟩, ?_⟩
    · rw [← h.high]
      unfold highAt
      split
      · exact (inline_cons _ _).mpr ⟨rfl, hdigits _⟩
      · exact inline_nil
    · rw [← h.ending, BoundsEnd.scan]
      split
      · decide
      · exact SkippedPiece.inline_scan _
    · unfold lazyText
      split <;> decide

theorem Quantifier.inline_scan? (t : Text) : Inline ((scan? t).elim [] text) := by
  cases hb : begins t with
  | false =>
    rw [scan?_of_not_begins hb]
    exact inline_nil
  | true =>
    rcases begins_cases hb with ⟨c, r, rfl, hc⟩ | ⟨r, rfl⟩
    · rw [scan?_mark hc, Option.elim_some, text, inline_cons]
      refine ⟨isLineTerminator_of_isMark hc, ?_⟩
      unfold lazyText
      split <;> decide
    · rw [scan?_brace]
      exact inline_scanBounds r

theorem GroupKind.inline_scan (t : Text) : Inline (scan t).text := by
  unfold scan
  split <;> simp [text, isLineTerminator]

theorem RegexElement.inline_scan {c : Char} (hc : isLineTerminator c = false) (t : Text) :
    Inline (scan c t).text := by
  unfold scan
  split
  · exact RegexEscape.inline_scan t
  · exact (inline_cons _ _).mpr ⟨rfl, GroupKind.inline_scan t⟩
  · decide
  · decide
  · decide
  · intro d hd
    rw [List.eq_of_mem_replicate hd]
    rfl
  · exact CharacterClass.inline_scan t
  all_goals exact (inline_cons _ _).mpr ⟨hc, inline_nil⟩

theorem RegexTerm.inline_scan (t : Text) : Inline ((scan t).flatMap text) := by
  rw [Text.inline_flatMap]
  apply pieceScan.forall_mem (P := fun m => Inline m.text) _ () t
  intro _ c t hs
  simp only [stopsAt, List.head?_cons, Option.all_some, Bool.or_eq_false_iff] at hs
  rw [text, inline_append]
  refine ⟨RegexElement.inline_scan hs.2 t, ?_⟩
  simp only [step, quantifierOf, quantifierText]
  split
  · exact Quantifier.inline_scan? _
  · exact inline_nil

theorem Punctuator.inline_scan? {t p : Text} (h : scan? t = some p) : Inline p := by
  unfold scan? at h
  split at h
  · obtain rfl := Option.some.inj h
    decide
  · have hall : ∀ q ∈ table, Inline q := by decide +kernel
    exact hall p (List.mem_of_find?_eq_some h)

namespace Opening

def isInline : Opening → Bool
  | string | template | blockComment => false
  | _ => true

/-- What stays on its line does so. -/
theorem inline_raw [UnicodePrimitives] {context : Context} {o : Opening} {c : Char} {t : Text}
    (ho : o.isInline)
    (hc : isLineTerminator c = false) : Inline (o.lexeme context c t).raw := by
  cases o with
  | name =>
    rw [lexeme, Lexeme.raw_name, Text.inline_flatMap]
    apply NamePart.pieceScan.forall_mem (P := fun p => Inline p.raw) _ false (c :: t)
    intro started d t hs
    exact NamePart.inline_step (by simpa using hs)
  | number =>
    rw [lexeme, Lexeme.raw_number]
    exact NumberLiteral.inline_extent (c :: t)
  | lineComment =>
    rw [lexeme, Lexeme.raw_lineComment, inline_cons, inline_cons]
    exact ⟨rfl, rfl, inline_takeWhile (by simp) _⟩
  | regex =>
    obtain ⟨pattern, r, rfl, hp, ⟨r', rfl⟩ | hr⟩ := Lexeme.regex_cases t
    · have hpattern : Inline pattern := hp ▸ RegexTerm.inline_scan _
      rw [lexeme, (Lexeme.regex_closed hp).2.1]
      simp only [inline_cons, inline_append]
      exact ⟨rfl, hpattern, rfl, inline_takeWhile (fun _ => isLineTerminator_of_isWordPart) r'⟩
    · rw [lexeme, (Lexeme.regex_unclosed hr hp).2.1, inline_cons]
      exact ⟨rfl, hp ▸ RegexTerm.inline_scan _⟩
  | mark =>
    rw [lexeme, Lexeme.mark]
    split
    · rename_i hp
      rw [Lexeme.raw_punctuator]
      exact Punctuator.inline_scan? hp
    · rw [Lexeme.raw_unexpected, inline_cons]
      exact ⟨hc, inline_nil⟩
  | _ => simp [isInline] at ho

end Opening

namespace EscapeSequence

theorem inline_scan (context : EscapeContext) {c : Char} (hc : isLineTerminator c = false)
    (t : Text) : Inline (scan context (c :: t)).text := by
  simp only [scan, hc, Bool.false_eq_true, if_false]
  split
  · rw [text, inline_cons, inline_cons]
    exact ⟨rfl, hc, inline_nil⟩
  · rw [text_ofCode, inline_cons, inline_cons]
    exact ⟨rfl, hc, WrittenCode.inline_elim_fixed? 2 t⟩
  · rw [text_ofCode, inline_cons, inline_cons]
    exact ⟨rfl, hc, WrittenCode.inline_elim_unicode? t⟩
  · rw [text, inline_cons, inline_cons]
    exact ⟨rfl, hc, inline_nil⟩

/-- The line end that a continuation takes up is a whole one. -/
theorem apart_terminatorOf {c : Char} {a u : Text} (ha : terminatorOf (c :: (a ++ u)) = c :: a) :
    Apart (c :: a) u := by
  by_cases h : c = '\r' ∧ (a ++ u).head? = some '\n'
  · obtain ⟨rfl, hhead⟩ := h
    obtain ⟨r, hr⟩ := List.head?_eq_some_iff.mp hhead
    rw [hr] at ha
    obtain rfl : a = ['\n'] := by simpa [terminatorOf] using ha.symm
    simp [Apart]
  · rw [terminatorOf_cons_of_ne h] at ha
    obtain rfl : a = [] := by simpa using ha.symm
    intro hc hu
    exact h ⟨by simpa using hc, hu⟩

theorem apart_scan {context : EscapeContext} {a u : Text}
    (ha : (scan context (a ++ u)).text = '\\' :: a) : Apart ('\\' :: a) u := by
  cases a with
  | nil => exact Inline.apart (by decide) u
  | cons c a =>
    by_cases hc : isLineTerminator c
    · rw [List.cons_append, scan_terminator context hc, text, List.cons_inj_right] at ha
      exact (Text.apart_append (b := ['\\']) (by simp)).mpr (apart_terminatorOf ha)
    · have hinline := inline_scan context (by simpa using hc) (a ++ u)
      rw [← List.cons_append, ha] at hinline
      exact hinline.apart u

end EscapeSequence

namespace StringPiece

theorem apart_step {quote c : Char} {w r : Text} (hs : stopsAt quote (c :: (w ++ r)) = false)
    (hw : (step c (w ++ r)).text = c :: w) : Apart (c :: w) r := by
  simp only [stopsAt, List.head?_cons, Option.all_some, Bool.or_eq_false_iff] at hs
  by_cases hc : c = '\\'
  · subst hc
    exact EscapeSequence.apart_scan (by simpa [step, text] using hw)
  · obtain rfl : w = [] := by simpa [step, hc, text] using hw.symm
    exact Inline.apart (by simpa using hs.2) r

theorem apart_body {quote : Char} {a u : Text} (ha : (scan quote (a ++ u)).flatMap text = a) :
    Apart a u := by
  induction hn : a.length using Nat.strong_induction_on generalizing a with
  | _ n ih =>
    cases hs : stopsAt quote (a ++ u) with
    | true =>
      rw [(pieceScan quote).stop (s := ()) hs] at ha
      rw [← ha]
      exact Inline.apart inline_nil u
    | false =>
      obtain ⟨c, w, r, ht, hw⟩ := (pieceScan quote).exists_piece (s := ()) hs
      rw [ht] at ha hs
      rw [(pieceScan quote).scan_cons (s := ()) hs hw, List.flatMap_cons, hw] at ha
      obtain ⟨a', rfl⟩ : ∃ a', a = c :: w ++ a' := ⟨_, ha.symm⟩
      obtain rfl : a' ++ u = r := by simpa using ht
      cases a' with
      | nil =>
        rw [List.append_nil]
        exact apart_step hs hw
      | cons d a' =>
        rw [Text.apart_append (by simp)]
        exact ih (d :: a').length (by simp at hn ⊢; omega) (List.append_cancel_left ha) rfl

end StringPiece

namespace Lexeme

theorem apart_string {quote : Char} (hq : isLineTerminator quote = false) {a u : Text}
    (ha : (string quote (a ++ u)).raw = quote :: a) : Apart (quote :: a) u := by
  obtain ⟨body, r, ht, hb, ⟨r', rfl, hu⟩ | ⟨-, hu⟩⟩ := string_cases quote (a ++ u)
  · rw [raw_string, hb, hu, List.cons_inj_right] at ha
    rw [← ha, ← List.cons_append]
    exact Text.apart_append_inline (by simpa using hq) (by simp) u
  · rw [raw_string, hb, hu, if_pos rfl, List.append_nil, List.cons_inj_right] at ha
    subst ha
    have hbody : Apart body u := StringPiece.apart_body hb
    cases body with
    | nil => exact Inline.apart (by simpa using hq) u
    | cons c body => exact (Text.apart_append (b := [quote]) (by simp)).mpr hbody

theorem apart_template {a u : Text} (ha : (template (a ++ u)).raw = '\x60' :: a) :
    Apart ('\x60' :: a) u := by
  cases hu : (template (a ++ u)).unclosed with
  | true =>
    rw [eq_nil_of_unclosed_template ha hu]
    exact Text.apart_nil_right _
  | false =>
    have hc : (TemplatePiece.scan [.template] (a ++ u)).2 = true := by
      simpa [unclosed_template] using hu
    obtain ⟨b, d, hb, hd⟩ := TemplatePiece.exists_last (by simp) hc
    have hline : isLineTerminator d = false := by rcases hd with rfl | rfl <;> rfl
    rw [raw_template, hb] at ha
    rw [← ha]
    exact Text.apart_append_inline (b := '\x60' :: b) (by simpa using hline) (by simp) u

theorem apart_blockComment {a u : Text} (ha : (blockComment (a ++ u)).raw = '/' :: '*' :: a) :
    Apart ('/' :: '*' :: a) u := by
  cases hu : (blockComment (a ++ u)).unclosed with
  | true =>
    rw [eq_nil_of_unclosed_blockComment ha hu]
    exact Text.apart_nil_right _
  | false =>
    rw [raw_blockComment, hu] at ha
    rw [← ha]
    exact Text.apart_append_inline (b := '/' :: '*' :: _) (by decide) (by simp) u

/-- A lexeme does not end within a line end. -/
theorem apart_scanCons [UnicodePrimitives] {context : Context} {c : Char} {a u : Text}
    (hc : isLineTerminator c = false) (ha : (scanCons context c (a ++ u)).raw = c :: a) :
    Apart (c :: a) u := by
  have hfits := Opening.fits_of context.regexAllowed c (a ++ u)
  rw [Opening.lexeme_of] at ha
  cases ho : (Opening.of context.regexAllowed c (a ++ u)).isInline with
  | true =>
    rw [← ha]
    exact (Opening.inline_raw ho hc).apart u
  | false =>
    cases h : Opening.of context.regexAllowed c (a ++ u) with
    | string =>
      rw [h] at ha
      exact apart_string hc ha
    | template =>
      rw [h] at hfits ha
      obtain rfl : c = '\x60' := hfits
      exact apart_template ha
    | blockComment =>
      rw [h] at hfits ha
      obtain ⟨rfl, -⟩ := hfits
      obtain ⟨a, rfl⟩ := exists_of_raw_blockComment ha
      exact apart_blockComment ha
    | _ => simp [h, Opening.isInline] at ho

end Lexeme

theorem isLineTerminator_of_startsToken {c : Char} {t : Text} (h : startsToken (c :: t)) :
    isLineTerminator c = false := by
  rw [startsToken, List.head?_cons, Option.all_some, Bool.and_eq_true] at h
  exact isLineTerminator_of_pos (p := fun c => decide (CharClass.ofChar c = .printable)) rfl rfl h.1

namespace NextCut

variable {l : Lexer} {g w u : Text}

theorem apart [UnicodePrimitives] (h : NextCut l g w u) : Apart (g ++ w) u := by
  cases w with
  | nil =>
    rw [h.eof rfl]
    exact Text.apart_nil_right _
  | cons c a =>
    have hraw := h.raw
    rw [h.lexeme] at hraw
    rw [Text.apart_append (by simp)]
    exact Lexeme.apart_scanCons (isLineTerminator_of_startsToken h.starts) hraw

theorem apart_gap [Primitives] (h : NextCut l g w u) : Apart g (w ++ u) := by
  intro _ hc
  obtain ⟨t, ht⟩ := List.head?_eq_some_iff.mp hc
  exact absurd (isLineTerminator_of_startsToken (ht ▸ h.starts)) (by decide)

end NextCut

end EcmaLex
