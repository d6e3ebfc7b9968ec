import EcmaLex.Primitives.Standard
import EcmaLex.Proofs.LineEnds.Extent
import EcmaLex.Proofs.Respelling

/-!
# The slash that closes a pattern

Where a pattern ends is settled by its backslashes and brackets alone: the first slash on the line
closes it that is neither escaped nor in a class. The one exception is what is skipped behind broken
bounds, where an opening bracket opens no class. In the same way backslashes and brackets settle
which parentheses count.
-/

namespace EcmaLex

open Text (endsLine Inline inline_nil inline_cons inline_append)

inductive Parenthesis where
  | opening (place : Nat)
  | closing (place : Nat)
deriving DecidableEq, Repr

def Parenthesis.ofChar (place : Nat) : Char → List Parenthesis
  | '(' => [opening place]
  | ')' => [closing place]
  | _ => []

theorem Parenthesis.ofChar_eq_nil {c : Char} (h : c ≠ '(' ∧ c ≠ ')') (place : Nat) :
    ofChar place c = [] := by
  unfold ofChar
  split <;> simp_all

/-- What is known between two characters of a pattern. -/
structure PatternSpot where
  /-- The next character stands behind a backslash that is not escaped itself. -/
  escaped : Bool := false
  inClass : Bool := false
deriving DecidableEq, Repr

namespace PatternSpot

def step (s : PatternSpot) (c : Char) : PatternSpot :=
  if s.escaped then { s with escaped := false }
  else if c = '\\' then { s with escaped := true }
  else { s with inClass := if s.inClass then c ≠ ']' else c = '[' }

/-- The text before the first slash on the line that is neither escaped nor in a class, if there is
such a slash. -/
def beforeSlash? (s : PatternSpot) : Text → Option Text
  | [] => none
  | c :: t =>
    if isLineTerminator c then none
    else if c = '/' && s = {} then some []
    else ((s.step c).beforeSlash? t).map (c :: ·)

theorem beforeSlash?_of_endsLine (s : PatternSpot) {r : Text} (h : endsLine r) :
    s.beforeSlash? r = none := by
  cases r with
  | nil => rfl
  | cons c r =>
    have hc : isLineTerminator c := h
    rw [beforeSlash?, if_pos hc]

theorem beforeSlash?_slash (r : Text) : beforeSlash? {} ('/' :: r) = some [] := rfl

def parentheses (s : PatternSpot) (n : Nat) : Text → List Parenthesis
  | [] => []
  | c :: t => (if s = {} then Parenthesis.ofChar n c else []) ++ (s.step c).parentheses (n + 1) t

theorem parentheses_append (s : PatternSpot) (n : Nat) (w w' : Text) :
    s.parentheses n (w ++ w') =
      s.parentheses n w ++ (w.foldl step s).parentheses (n + w.length) w' := by
  induction w generalizing s n with
  | nil => rfl
  | cons c w ih => simp [parentheses, ih, Nat.add_assoc, Nat.add_comm 1]

def Passes (s s' : PatternSpot) (w r : Text) : Prop :=
  s.beforeSlash? (w ++ r) = (s'.beforeSlash? r).map (w ++ ·)

variable {s s' s'' : PatternSpot} {w w' r : Text} {f f' : Nat → List Parenthesis}

theorem passes_nil (s : PatternSpot) (r : Text) : Passes s s [] r := by simp [Passes]

theorem passes_of_endsLine (s s' : PatternSpot) (h : endsLine r) : Passes s s' [] r := by
  simp [Passes, beforeSlash?_of_endsLine _ h]

theorem Passes.append (h : Passes s s' w (w' ++ r)) (h' : Passes s' s'' w' r) :
    Passes s s'' (w ++ w') r := by
  simp only [Passes] at h h' ⊢
  rw [List.append_assoc, h, h', Option.map_map]
  simp [Function.comp_def]

theorem passes_char {c : Char} (hc : isLineTerminator c = false) (hs : c = '/' → s ≠ {})
    (r : Text) : Passes s (s.step c) [c] r := by
  have hslash : (c = '/' && s = {}) = false := by simpa using hs
  simp [Passes, beforeSlash?, hc, hslash]

/-- The text `w` before `r` is crossed from one spot to another. The parentheses `f` of it count.
At the end of a line all spots are the same. -/
structure Crosses (s s' : PatternSpot) (w r : Text) (f : Nat → List Parenthesis) : Prop where
  passes : Passes s s' w r
  inline : Inline w
  spot : endsLine r ∨ w.foldl step s = s'
  parentheses : ∀ n, s.parentheses n w = f n

theorem crosses_nil (s : PatternSpot) (r : Text) : Crosses s s [] r fun _ => [] :=
  ⟨passes_nil s r, inline_nil, .inr rfl, fun _ => rfl⟩

theorem crosses_of_endsLine (s s' : PatternSpot) (h : endsLine r) :
    Crosses s s' [] r fun _ => [] :=
  ⟨passes_of_endsLine s s' h, inline_nil, .inl h, fun _ => rfl⟩

theorem Crosses.append (h : Crosses s s' w (w' ++ r) f) (h' : Crosses s' s'' w' r f') :
    Crosses s s'' (w ++ w') r fun n => f n ++ f' (n + w.length) := by
  have hspot : (w' = [] ∧ endsLine r) ∨ w.foldl step s = s' := by
    refine h.spot.imp_left fun hends => ?_
    cases w' with
    | nil => exact ⟨rfl, hends⟩
    | cons c w' =>
      have hc : isLineTerminator c := hends
      rw [((inline_cons c w').mp h'.inline).1] at hc
      cases hc
  refine ⟨h.passes.append h'.passes, (inline_append _ _).mpr ⟨h.inline, h'.inline⟩, ?_, ?_⟩
  · rcases hspot with ⟨-, hends⟩ | hspot
    · exact .inl hends
    · rw [List.foldl_append, hspot]
      exact h'.spot
  · intro n
    rw [parentheses_append, h.parentheses, ← h'.parentheses]
    rcases hspot with ⟨rfl, -⟩ | hspot
    · rfl
    · rw [hspot]

theorem Crosses.append_bare (h : Crosses s s' w (w' ++ r) fun _ => [])
    (h' : Crosses s' s'' w' r fun _ => []) : Crosses s s'' (w ++ w') r fun _ => [] :=
  h.append h'

theorem crosses_char {c : Char} (hc : isLineTerminator c = false) (hs : c = '/' → s ≠ {})
    (r : Text) :
    Crosses s (s.step c) [c] r fun n => if s = {} then Parenthesis.ofChar n c else [] :=
  ⟨passes_char hc hs r, (inline_cons c []).mpr ⟨hc, inline_nil⟩, .inr rfl,
    fun _ => List.append_nil _⟩

def spot (inClass : Bool) : PatternSpot := { inClass }

def isNeutral (c : Char) : Bool :=
  !(['/', '\\', '[', ']', '(', ')', '\n', '\r'].contains c)

theorem crosses_neutral (h : w.all isNeutral) (b : Bool) (r : Text) :
    Crosses (spot b) (spot b) w r fun _ => [] := by
  induction w with
  | nil => exact crosses_nil _ r
  | cons c w ih =>
    rw [List.all_cons, Bool.and_eq_true] at h
    obtain ⟨hc, hw⟩ := h
    simp only [isNeutral, List.contains_cons, List.contains_nil, Bool.not_eq_true',
      Bool.or_eq_false_iff, beq_eq_false_iff_ne, ne_eq] at hc
    have hstep : (spot b).step c = spot b := by
      cases b <;> simp [spot, step, hc]
    have hchar := crosses_char (s := spot b) (c := c) (by simp [isLineTerminator, hc])
      (fun hslash => absurd hslash hc.1) (w ++ r)
    rw [hstep] at hchar
    simpa [Parenthesis.ofChar_eq_nil, hc] using hchar.append (ih hw)

/-- A backslash takes the character behind it along. -/
theorem crosses_escape {a : Text} (ha : (RegexEscape.scan (a ++ r)).text = '\\' :: a) (b : Bool) :
    Crosses (spot b) (spot b) ('\\' :: a) r fun _ => [] := by
  rw [RegexEscape.text_scan, List.cons_inj_right] at ha
  have hback : Crosses (spot b) ((spot b).step '\\') ['\\'] (a ++ r) fun _ => [] := by
    simpa [Parenthesis.ofChar] using
      crosses_char (s := spot b) (c := '\\') (by decide) (by simp) (a ++ r)
  refine hback.append_bare ?_
  cases a with
  | nil => exact crosses_of_endsLine _ _ ((foundAt_eq_nil_iff r).mp ha)
  | cons c a =>
    have hc : isLineTerminator c = false := by
      rw [Bool.eq_false_iff]
      intro hc
      simp [foundAt_cons, hc] at ha
    obtain rfl : a = [] := by simpa [foundAt_cons, hc, eq_comm] using ha
    have hchar := crosses_char (s := (spot b).step '\\') hc (by cases b <;> simp [spot, step]) r
    cases b <;> exact hchar

/-- The text `w` is passed over from any spot, where `P c` holds if no character `c` in it is
skipped behind broken bounds. Without a bracket that is skipped, it is passed over from outside of a
class to outside of a class, and without a parenthesis that is skipped, the parentheses `f` of it
count. -/
structure Spans (P : Char → Prop) (w r : Text) (f : Nat → List Parenthesis) : Prop where
  passes : ∀ b, ∃ b', Passes (spot b) (spot b') w r
  outside : P '[' → Passes (spot false) (spot false) w r
  crosses : (∀ c ∈ "[()".toList, P c) → Crosses (spot false) (spot false) w r f

variable {P Q : Char → Prop}

theorem Spans.append (h : Spans P w (w' ++ r) f) (h' : Spans Q w' r f') :
    Spans (fun c => P c ∧ Q c) (w ++ w') r fun n => f n ++ f' (n + w.length) where
  passes := by
    intro b
    obtain ⟨b', hb⟩ := h.passes b
    obtain ⟨b'', hb'⟩ := h'.passes b'
    exact ⟨b'', hb.append hb'⟩
  outside := fun hpq => (h.outside hpq.1).append (h'.outside hpq.2)
  crosses := fun hpq => (h.crosses fun c hc => (hpq c hc).1).append
    (h'.crosses fun c hc => (hpq c hc).2)

theorem Spans.mono (h : Spans P w r f) (hqp : ∀ c, Q c → P c) : Spans Q w r f :=
  ⟨h.passes, fun hq => h.outside (hqp _ hq), fun hq => h.crosses fun c hc => hqp c (hq c hc)⟩

theorem spans_of_crosses (hin : Passes (spot true) (spot true) w r)
    (hout : Crosses (spot false) (spot false) w r f) : Spans P w r f := by
  refine ⟨fun b => ?_, fun _ => hout.passes, fun _ => hout⟩
  cases b with
  | false => exact ⟨false, hout.passes⟩
  | true => exact ⟨true, hin⟩

theorem spans_neutral (h : w.all isNeutral) (r : Text) : Spans P w r fun _ => [] :=
  spans_of_crosses (crosses_neutral h true r).passes (crosses_neutral h false r)

theorem spans_escape {a : Text} (ha : (RegexEscape.scan (a ++ r)).text = '\\' :: a) :
    Spans P ('\\' :: a) r fun _ => [] :=
  spans_of_crosses (crosses_escape ha true).passes (crosses_escape ha false)

theorem crosses_outside {c : Char} (hc : c ≠ '/' ∧ isLineTerminator c = false) (hback : c ≠ '\\')
    (hopen : c ≠ '[') (r : Text) :
    Crosses (spot false) (spot false) [c] r (Parenthesis.ofChar · c) := by
  have hchar := crosses_char (s := spot false) hc.2 (fun h => absurd h hc.1) r
  have hstep : (spot false).step c = spot false := by simp [spot, step, hback, hopen]
  rwa [hstep] at hchar

theorem exists_passes_char {c : Char} (hc : c ≠ '/' ∧ isLineTerminator c = false)
    (hback : c ≠ '\\') (r : Text) (b : Bool) : ∃ b', Passes (spot b) (spot b') [c] r := by
  have hpasses := passes_char (s := spot b) hc.2 (fun h => absurd h hc.1) r
  have hstep : (spot b).step c = spot (if b then c ≠ ']' else c = '[') := by
    cases b <;> simp [spot, step, hback]
  exact ⟨_, hstep ▸ hpasses⟩

theorem spans_skipped {c : Char} (hc : c ≠ '/' ∧ isLineTerminator c = false) (hback : c ≠ '\\')
    (r : Text) : Spans (c ≠ ·) [c] r fun _ => [] := by
  refine ⟨exists_passes_char hc hback r, fun hopen => (crosses_outside hc hback hopen r).passes,
    fun hskipped => ?_⟩
  have hopen : c ≠ '[' := hskipped '[' (by decide)
  have hparen : c ≠ '(' ∧ c ≠ ')' := ⟨hskipped '(' (by decide), hskipped ')' (by decide)⟩
  simpa only [Parenthesis.ofChar_eq_nil hparen] using crosses_outside hc hback hopen r

end PatternSpot

open PatternSpot

namespace ClassItem

/-- No slash in a class closes the pattern, and no parenthesis in it counts. -/
theorem crosses_scan (t : Text) : ∃ r, t = (scan t).flatMap text ++ r ∧ stopsAt r ∧
    Crosses (spot true) (spot true) ((scan t).flatMap text) r fun _ => [] := by
  refine pieceScan.exists_rest_of
    (motive := fun items r => stopsAt r ∧
      Crosses (spot true) (spot true) (items.flatMap text) r fun _ => []) ?_ ?_ () t
  · intro _ r hs
    exact ⟨hs, crosses_nil _ r⟩
  · intro _ c w items r hs hw ⟨hstop, hitems⟩
    obtain ⟨hc, hterminator⟩ : c ≠ ']' ∧ isLineTerminator c = false := by
      simpa [stopsAt] using hs
    refine ⟨hstop, ?_⟩
    rw [List.flatMap_cons, hw]
    refine .append_bare ?_ hitems
    unfold step at hw
    split at hw
    · rename_i hhyphen
      obtain ⟨rfl, rfl⟩ : c = '-' ∧ w = [] := ⟨hhyphen, by simpa [text, hhyphen] using hw.symm⟩
      exact crosses_neutral (by decide) true _
    · split at hw
      · rename_i hback
        subst hback
        exact crosses_escape hw true
      · rename_i hback
        obtain rfl : w = [] := by simpa [text] using hw.symm
        have hchar := crosses_char (s := spot true) hterminator (by simp [spot])
          (items.flatMap text ++ r)
        have hstep : (spot true).step c = spot true := by simp [spot, PatternSpot.step, hback, hc]
        rwa [hstep] at hchar

end ClassItem

/-- A class is left behind its bracket, or at the end of the line. -/
theorem CharacterClass.crosses_scan {w r : Text} (hw : (scan (w ++ r)).text = '[' :: w)
    (b : Bool) : Crosses (spot b) (spot false) ('[' :: w) r fun _ => [] := by
  have hopen : Crosses (spot b) (spot true) ['['] (w ++ r) fun _ => [] := by
    have hchar := crosses_char (s := spot b) (c := '[') (by decide) (by simp) (w ++ r)
    cases b <;> exact hchar
  refine hopen.append_bare ?_
  obtain ⟨negated, items, u, hp⟩ := exists_parts (w ++ r)
  obtain ⟨z, hz⟩ : ∃ z : Text, (if u.head? = some ']' then [']'] else []) = z := ⟨_, rfl⟩
  rw [hp.scan_eq, text_eq, List.cons_inj_right] at hw
  simp only [decide_eq_true_eq, hz] at hw
  subst hw
  obtain rfl : z ++ r = u := by simpa using hp.text
  obtain ⟨v, hv, hstop, hitems⟩ := ClassItem.crosses_scan (items.flatMap ClassItem.text ++ (z ++ r))
  rw [hp.items] at hv hitems
  obtain rfl := List.append_cancel_left hv
  have hcaret : Crosses (spot true) (spot true) (caret negated)
      ((items.flatMap ClassItem.text ++ z) ++ r) fun _ => [] := by
    cases negated with
    | true => exact crosses_neutral (by decide) true _
    | false => exact crosses_nil _ _
  refine hcaret.append_bare (hitems.append_bare ?_)
  -- Without its bracket the class ends with the line, where all spots are the same.
  by_cases hclosed : (z ++ r).head? = some ']'
  · rw [if_pos hclosed] at hz
    subst hz
    exact crosses_char (s := spot true) (c := ']') (by decide) (by simp) r
  · rw [if_neg hclosed] at hz
    subst hz
    refine crosses_of_endsLine _ _ ?_
    cases r with
    | nil => rfl
    | cons c r =>
      obtain rfl | hc : c = ']' ∨ isLineTerminator c := by simpa [ClassItem.stopsAt] using hstop
      · simp at hclosed
      · exact hc

namespace SkippedPiece

/-- A bracket that is skipped opens no class, and so the spot may change there. -/
theorem spans_scan (t : Text) : ∃ r, t = (scan t).flatMap text ++ r ∧
    Spans (char · ∉ scan t) ((scan t).flatMap text) r fun _ => [] := by
  refine pieceScan.exists_rest_of
    (motive := fun ps r => Spans (char · ∉ ps) (ps.flatMap text) r fun _ => []) ?_ ?_ false t
  · intro _ r _
    exact spans_neutral rfl r
  · intro closed c w ps r hs hw hps
    obtain ⟨-, hslash, hterminator⟩ : closed = false ∧ c ≠ '/' ∧ isLineTerminator c = false := by
      simpa [stopsAt] using hs
    rw [List.flatMap_cons, hw]
    unfold step at hw ⊢
    split at hw
    · rename_i hback
      subst hback
      have hescape := spans_escape (P := fun _ => True) hw
      exact (hescape.append hps).mono fun d hmem => ⟨trivial, by simpa using hmem⟩
    · rename_i hback
      obtain rfl : w = [] := by simpa [text] using hw.symm
      have hchar := spans_skipped ⟨hslash, hterminator⟩ hback (ps.flatMap text ++ r)
      exact (hchar.append hps).mono fun d hmem => by simpa [hback, eq_comm] using hmem

end SkippedPiece

namespace BoundsEnd

def skipped : BoundsEnd → List SkippedPiece
  | closed => []
  | broken _ skipped => skipped

theorem spans_scan {e : BoundsEnd} {r : Text} (he : scan (e.text ++ r) = e) :
    Spans (.char · ∉ e.skipped) e.text r fun _ => [] := by
  cases e with
  | closed => exact spans_neutral (by decide) r
  | broken found skipped =>
    unfold scan at he
    split at he
    · cases he
    · obtain ⟨-, hscan⟩ := broken.inj he
      obtain ⟨u, hu, hspans⟩ := SkippedPiece.spans_scan ((broken found skipped).text ++ r)
      rw [hscan] at hu hspans
      obtain rfl := List.append_cancel_left hu
      exact hspans

end BoundsEnd

def Quantifier.skipped : Quantifier → List SkippedPiece
  | bounds _ _ ending _ => ending.skipped
  | _ => []

namespace Quantifier

theorem isNeutral_of_isDigit {c : Char} (h : c.isDigit) : isNeutral c := by
  rw [isNeutral, Bool.not_eq_true', Bool.eq_false_iff]
  intro hmem
  simp only [List.contains_iff_mem, List.mem_cons, List.not_mem_nil, or_false] at hmem
  rcases hmem with rfl | rfl | rfl | rfl | rfl | rfl | rfl | rfl <;> revert h <;> decide

theorem isNeutral_of_isMark {c : Char} (h : isMark c) : isNeutral c := by
  simp only [isMark, Bool.or_eq_true, decide_eq_true_eq] at h
  rcases h with (rfl | rfl) | rfl <;> decide

theorem isNeutral_digits (t : Text) : (t.takeWhile Char.isDigit).all isNeutral :=
  List.all_eq_true.mpr fun _ hc => isNeutral_of_isDigit (List.mem_takeWhile_imp hc)

theorem isNeutral_highText {high : Option Text} {t : Text} (h : highAt t = high) :
    (highText high).all isNeutral := by
  subst h
  unfold highAt
  split
  · exact isNeutral_digits _
  · rfl

theorem isNeutral_lazyText (isLazy : Bool) : (lazyText isLazy).all isNeutral := by
  cases isLazy <;> rfl

theorem spans_scanBounds {w r : Text} (hw : (scanBounds (w ++ r)).text = '\x7b' :: w) :
    Spans (.char · ∉ (scanBounds (w ++ r)).skipped) ('\x7b' :: w) r fun _ => [] := by
  by_cases hl : (w ++ r).takeWhile Char.isDigit = []
  · rw [scanBounds_of_not_digit hl] at hw
    obtain rfl : w = [] := by simpa [text] using hw.symm
    exact spans_neutral (by decide) r
  · obtain ⟨low, high, ending, u, hb⟩ := exists_bounds (w ++ r)
    rw [hb.scan_eq (hb.low ▸ hl)] at hw ⊢
    obtain ⟨z, hz⟩ : ∃ z, lazyText (u.head? = some '?') = z := ⟨_, rfl⟩
    rw [text, hz] at hw
    obtain rfl : w = low ++ (highText high ++ (ending.text ++ z)) := by simpa using hw.symm
    obtain rfl : z ++ r = u := by simpa using hb.text
    have hlow : ('\x7b' :: low).all isNeutral := hb.low ▸ isNeutral_digits _
    have hlazy : z.all isNeutral := hz ▸ isNeutral_lazyText _
    have hspans := (spans_neutral (P := fun _ => True) hlow _).append
      ((spans_neutral (P := fun _ => True) (isNeutral_highText hb.high) _).append
        ((BoundsEnd.spans_scan hb.ending).append (spans_neutral (P := fun _ => True) hlazy r)))
    exact hspans.mono fun c hskipped => ⟨trivial, trivial, hskipped, trivial⟩

theorem spans_scan? {w r : Text} (hw : (scan? (w ++ r)).elim [] text = w) :
    Spans (.char · ∉ (scan? (w ++ r)).elim [] skipped) w r fun _ => [] := by
  cases hb : begins (w ++ r) with
  | false =>
    rw [scan?_of_not_begins hb] at hw
    subst hw
    exact spans_neutral (by simp) r
  | true =>
    rcases begins_cases hb with ⟨c, u, hu, hc⟩ | ⟨u, hu⟩
    · rw [hu, scan?_mark hc, Option.elim_some] at hw
      refine spans_neutral ?_ r
      rw [← hw, text, List.all_cons, isNeutral_of_isMark hc, isNeutral_lazyText]
      rfl
    · rw [hu, scan?_brace, Option.elim_some] at hw
      obtain ⟨a, ha⟩ := exists_text_scanBounds u
      obtain rfl : w = '\x7b' :: a := hw.symm.trans ha
      obtain rfl : a ++ r = u := by simpa using hu
      rw [List.cons_append, scan?_brace]
      exact spans_scanBounds hw

end Quantifier

theorem isNeutral_groupKind (t : Text) : (GroupKind.scan t).text.all isNeutral := by
  unfold GroupKind.scan
  split <;> rfl

namespace RegexElement

def parentheses (e : RegexElement) (n : Nat) : List Parenthesis :=
  match e with
  | opening _ => [.opening n]
  | closing => [.closing n]
  | _ => []

theorem text_scan_single {c : Char} (hc : c ∉ ['\\', '(', ' ', '[']) (t : Text) :
    (scan c t).text = [c] := by
  unfold scan
  split <;> simp_all [text]

theorem parentheses_scan_single {c : Char} (hc : c ∉ ['\\', '(', ' ', '[']) (t : Text) :
    (scan c t).parentheses = (Parenthesis.ofChar · c) := by
  funext n
  unfold scan
  split <;> simp_all [parentheses, Parenthesis.ofChar]

theorem spans_scan {c : Char} {w r : Text} (hc : c ≠ '/' ∧ isLineTerminator c = false)
    (hw : (scan c (w ++ r)).text = c :: w) :
    Spans (fun _ => True) (c :: w) r (scan c (w ++ r)).parentheses := by
  by_cases hsingle : c ∈ ['\\', '(', ' ', '[']
  · simp only [List.mem_cons, List.not_mem_nil, or_false] at hsingle
    rcases hsingle with rfl | rfl | rfl | rfl
    · exact spans_escape hw
    · have hkind : w.all isNeutral := (List.cons.inj hw).2 ▸ isNeutral_groupKind (w ++ r)
      have hpasses := passes_char (s := spot true) (c := '(') (by decide) (by simp) (w ++ r)
      exact spans_of_crosses (hpasses.append (crosses_neutral hkind true r).passes)
        ((crosses_outside hc (by decide) (by decide) (w ++ r)).append
          (crosses_neutral hkind false r))
    · refine spans_neutral (List.all_eq_true.mpr fun d hd => ?_) r
      rw [← hw, scan, text] at hd
      rw [List.eq_of_mem_replicate hd]
      rfl
    · have hclass := CharacterClass.crosses_scan hw
      exact ⟨fun b => ⟨false, (hclass b).passes⟩, fun _ => (hclass false).passes,
        fun _ => hclass false⟩
  · rw [text_scan_single hsingle] at hw
    obtain rfl : w = [] := by simpa using hw
    obtain ⟨hback, -, -, hopen⟩ : c ≠ '\\' ∧ c ≠ '(' ∧ c ≠ ' ' ∧ c ≠ '[' := by
      simpa using hsingle
    have hchar := crosses_outside hc hback hopen r
    rw [parentheses_scan_single hsingle]
    exact ⟨exists_passes_char hc hback r, fun _ => hchar.passes, fun _ => hchar⟩

end RegexElement

def RegexTerm.skipped (m : RegexTerm) : List SkippedPiece :=
  m.quantifier.elim [] Quantifier.skipped

namespace RegexTerm

def parentheses (n : Nat) : List RegexTerm → List Parenthesis
  | [] => []
  | m :: terms => m.element.parentheses n ++ parentheses (n + m.text.length) terms

theorem spans_quantifierOf {e : RegexElement} {w r : Text}
    (hw : quantifierText (quantifierOf e (w ++ r)) = w) :
    Spans (.char · ∉ (quantifierOf e (w ++ r)).elim [] Quantifier.skipped) w r fun _ => [] := by
  unfold quantifierOf at hw ⊢
  split at hw
  · rename_i hatom
    rw [if_pos hatom]
    exact Quantifier.spans_scan? hw
  · obtain rfl : w = [] := hw.symm
    exact spans_neutral (by simp) r

theorem spans_step {c : Char} {w r : Text} (hc : c ≠ '/' ∧ isLineTerminator c = false)
    (hw : (step c (w ++ r)).text = c :: w) :
    Spans (.char · ∉ (step c (w ++ r)).skipped) (c :: w) r
      (step c (w ++ r)).element.parentheses := by
  obtain ⟨a, u, hu, ha⟩ := RegexElement.exists_split c (w ++ r)
  rw [hu] at ha hw ⊢
  rw [step_eq ha] at hw ⊢
  rw [text, ha, List.cons_append, List.cons_inj_right] at hw
  obtain ⟨q, hq⟩ : ∃ q, quantifierText (quantifierOf (RegexElement.scan c (a ++ u)) u) = q :=
    ⟨_, rfl⟩
  rw [hq] at hw
  obtain rfl : w = a ++ q := hw.symm
  obtain rfl : q ++ r = u := by simpa using hu
  have hspans := (RegexElement.spans_scan hc ha).append (spans_quantifierOf hq)
  simp only [List.append_nil] at hspans
  exact hspans.mono fun d hskipped => ⟨trivial, hskipped⟩

/-- No slash within the terms of a pattern closes it, as long as broken bounds skip no bracket, and
the parentheses that count are those of the elements, as long as they skip no parenthesis. -/
theorem spans_scan (t : Text) : ∃ r, t = (scan t).flatMap text ++ r ∧ stopsAt r ∧
    Spans (fun c => ∀ m ∈ scan t, .char c ∉ m.skipped) ((scan t).flatMap text) r
      (parentheses · (scan t)) := by
  refine pieceScan.exists_rest_of (motive := fun ms r => stopsAt r ∧
    Spans (fun c => ∀ m ∈ ms, .char c ∉ m.skipped) (ms.flatMap text) r (parentheses · ms))
    ?_ ?_ () t
  · intro _ r hs
    exact ⟨hs, spans_neutral rfl r⟩
  · intro _ c w ms r hs hw ⟨hstop, hms⟩
    have hc : c ≠ '/' ∧ isLineTerminator c = false := by simpa [stopsAt] using hs
    have hspans := (spans_step hc hw).append hms
    rw [← hw] at hspans
    exact ⟨hstop, hspans.mono fun d hskipped => List.forall_mem_cons.mp hskipped⟩

end RegexTerm

/-- The regular expression `k`, with the text `u` behind its opening slash, ends no later than the
slash that closes a pattern does, and there unless a bracket is skipped behind broken bounds. -/
structure Token.EndsAtSlash (k : Token) (u pattern : Text) : Prop where
  value : ∃ flags, k.value = .regex pattern flags
  closed : k.unclosed = false → pattern ++ ['/'] <+: u
  unclosed : k.unclosed → k.raw = '/' :: pattern ∧ ∃ r, u = pattern ++ r ∧ endsLine r
  /-- If a slash closes the pattern, the token is closed, at that slash or before it. -/
  reaches : ∀ e, beforeSlash? {} u = some e → k.unclosed = false ∧ pattern <+: e
  ends : (∀ m ∈ RegexTerm.scan u, .char '[' ∉ m.skipped) →
    beforeSlash? {} u = if k.unclosed then none else some pattern

namespace Lexer

theorem Reading.endsAtSlash [Primitives] {s : Reading} {u : Text} (h : s.lexeme = Lexeme.regex u) :
    ∃ pattern, s.token.EndsAtSlash u pattern := by
  have hvalue : s.token.value = (Lexeme.regex u).value := congrArg Lexeme.value h
  have hraw : s.token.raw = (Lexeme.regex u).raw := congrArg Lexeme.raw h
  have hunclosed : s.token.unclosed = (Lexeme.regex u).unclosed := congrArg Lexeme.unclosed h
  obtain ⟨pattern, r, hu, hp, hr⟩ := Lexeme.regex_cases u
  obtain ⟨r', hr', -, hspans⟩ := RegexTerm.spans_scan u
  rw [hp] at hr' hspans
  obtain rfl : r = r' := List.append_cancel_left (hu.symm.trans hr')
  obtain ⟨b, hb⟩ := hspans.passes false
  have hpass : beforeSlash? {} u = ((spot b).beforeSlash? r).map (pattern ++ ·) := by
    rw [hu]
    exact hb
  have hspare : (∀ m ∈ RegexTerm.scan u, .char '[' ∉ m.skipped) →
      beforeSlash? {} u = (beforeSlash? {} r).map (pattern ++ ·) := by
    intro hskipped
    rw [hu]
    exact hspans.outside hskipped
  refine ⟨pattern, ?_⟩
  subst hu
  -- The pattern ends at a slash, which then closes it, or else at the end of the line.
  rcases hr with ⟨r, rfl⟩ | hr
  · obtain ⟨hv, -, -, hc⟩ := Lexeme.regex_closed hp
    rw [hv] at hvalue
    rw [hc] at hunclosed
    refine ⟨⟨_, hvalue⟩, fun _ => ⟨r, by simp⟩, ?_, ?_, ?_⟩
    · intro h
      rw [hunclosed] at h
      simp at h
    · intro e he
      rw [hpass, Option.map_eq_some_iff] at he
      obtain ⟨w, -, rfl⟩ := he
      exact ⟨hunclosed, List.prefix_append pattern w⟩
    · intro hskipped
      rw [hspare hskipped, beforeSlash?_slash, hunclosed]
      simp
  · obtain ⟨hv, hraw', -, hc⟩ := Lexeme.regex_unclosed hr hp
    rw [hv] at hvalue
    rw [hraw'] at hraw
    rw [hc] at hunclosed
    refine ⟨⟨_, hvalue⟩, ?_, fun _ => ⟨hraw, r, rfl, hr⟩, ?_, ?_⟩
    · intro h
      rw [hunclosed] at h
      simp at h
    · intro e he
      simp [hpass, beforeSlash?_of_endsLine _ hr] at he
    · intro _
      simp [hpass, beforeSlash?_of_endsLine _ hr, hunclosed]

end Lexer

theorem Lexeme.exists_regex_of_kind [Primitives] {context : Context} {t : Text}
    (h : (scan context t).kind = .regex) : ∃ u, t = '/' :: u ∧ scan context t = regex u := by
  have hne : (scan context t).kind ≠ .eof := by simp [h]
  obtain ⟨o, c, u, rfl, hscan, hfits, hkind⟩ := Opening.exists_of_kind hne
  rw [h] at hkind
  cases o with
  | regex =>
    obtain rfl : c = '/' := hfits
    exact ⟨u, rfl, hscan⟩
  | _ => simp [Opening.kinds] at hkind

namespace Lexer

/-- Every regular expression of a text ends at the slash that closes its pattern, or at the end of
its line if there is none. -/
theorem regex_tokens_end [Primitives] (t : Text) (o : Options) (w : Bool) {k : Token}
    (hk : k ∈ (start t o w).tokens.1) (hregex : k.kind = .regex) :
    ∃ p u pattern, t = p ++ '/' :: u ∧ p.utf8Size = k.range.1 ∧ k.EndsAtSlash u pattern := by
  obtain ⟨before, after, htokens⟩ := List.append_of_mem hk
  obtain ⟨rs, s, rs', hreadings, -, rfl, -, -⟩ := exists_readings_of_tokens htokens
  obtain ⟨p, v, hs⟩ := exists_readsAt hreadings
  have hlexeme := hs.lexeme
  have hkind : s.lexeme.kind = .regex := hregex
  rw [hlexeme] at hkind
  obtain ⟨u, hu, hscan⟩ := Lexeme.exists_regex_of_kind hkind
  rw [hscan] at hlexeme
  obtain ⟨r, ht, hrest, hoffset⟩ := exists_rest t o w
  obtain ⟨pattern, hends⟩ := Reading.endsAtSlash hlexeme
  refine ⟨t.preamble ++ p, u, pattern, ?_, ?_, hends⟩
  · rw [List.append_assoc, ← hu, ← hs.text, hrest, ← ht]
  · rw [hs.start, hoffset, Text.utf8Size_append]

/-- Behind the broken bounds, neither the slash in the class nor the escaped one ends the token. -/
theorem regex_tokens_end_of_broken_bounds :
    ∃ k ∈ (start "/a\x7b1x\x7d[/]\\/b/g".toList {} false).tokens.1, k.kind = .regex ∧
      k.raw = "/a\x7b1x\x7d[/]\\/b/g".toList ∧
      ∃ p u pattern : Text, "/a\x7b1x\x7d[/]\\/b/g".toList = p ++ '/' :: u ∧
        p.utf8Size = k.range.1 ∧ k.EndsAtSlash u pattern := by
  have hany : (start "/a\x7b1x\x7d[/]\\/b/g".toList {} false).tokens.1.any fun k =>
      k.kind = .regex && k.raw = "/a\x7b1x\x7d[/]\\/b/g".toList := by
    decide +kernel
  obtain ⟨k, hk, hfacts⟩ := List.any_eq_true.mp hany
  simp only [Bool.and_eq_true, decide_eq_true_eq] at hfacts
  exact ⟨k, hk, hfacts.1, hfacts.2, regex_tokens_end _ _ _ hk hfacts.1⟩

/-- The bracket that is skipped behind the broken bounds opens no class, and so the slash in the
class ends the token. -/
theorem regex_tokens_end_in_class :
    ∃ k ∈ (start "/a\x7b1[/]/".toList {} false).tokens.1, k.range.1 = 0 ∧ k.unclosed = false ∧
      k.value = .regex "a\x7b1[".toList [] ∧
      beforeSlash? {} "a\x7b1[/]/".toList = some "a\x7b1[/]".toList := by
  decide +kernel

end Lexer

end EcmaLex
