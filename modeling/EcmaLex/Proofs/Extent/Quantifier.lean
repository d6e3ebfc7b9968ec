import EcmaLex.Proofs.Extent.Pieces
import EcmaLex.Regex.Quantifier

/-!
# The extent of quantifiers

Whatever reads a part of a pattern looks one character ahead and never past the end of the line. So
a part of a pattern is the same before any two texts that show the same character on their line.
-/

namespace EcmaLex

open Text (endsLine takeWhile_append_of_head? head?_not_of_takeWhile)

theorem foundAt_nil : foundAt [] = [] := rfl

theorem foundAt_cons (c : Char) (t : Text) :
    foundAt (c :: t) = if isLineTerminator c then [] else [c] := by
  cases h : isLineTerminator c <;> simp [foundAt, h]

theorem foundAt_eq_nil_iff (t : Text) : foundAt t = [] ↔ endsLine t := by
  cases t with
  | nil => simp [foundAt_nil, endsLine]
  | cons c t => simp [foundAt_cons, endsLine]

/-- Two texts that show the same character both start with it, or both are at the end of a line. -/
theorem foundAt_cases {x y : Text} (h : foundAt x = foundAt y) :
    endsLine x ∧ endsLine y ∨
      ∃ c x' y', x = c :: x' ∧ y = c :: y' ∧ isLineTerminator c = false := by
  by_cases hx : endsLine x
  · exact .inl ⟨hx, by rwa [← foundAt_eq_nil_iff, ← h, foundAt_eq_nil_iff]⟩
  · have hy : ¬ endsLine y := by rwa [← foundAt_eq_nil_iff, ← h, foundAt_eq_nil_iff]
    cases x with
    | nil => simp [endsLine] at hx
    | cons c x =>
      cases y with
      | nil => simp [endsLine] at hy
      | cons d y =>
        have hc : isLineTerminator c = false := by simpa [endsLine] using hx
        have hd : isLineTerminator d = false := by simpa [endsLine] using hy
        obtain rfl : c = d := by simpa [foundAt_cons, hc, hd] using h
        exact .inr ⟨c, x, y, rfl, rfl, hc⟩

theorem foundAt_append (a : Text) {x y : Text} (h : foundAt x = foundAt y) :
    foundAt (a ++ x) = foundAt (a ++ y) := by
  cases a with
  | nil => exact h
  | cons c a => simp only [List.cons_append, foundAt_cons]

theorem all_head?_of_foundAt_eq {p : Char → Bool} (hp : ∀ c, isLineTerminator c → p c)
    {x y : Text} (h : foundAt x = foundAt y) (hx : x.head?.all p) : y.head?.all p := by
  rcases foundAt_cases h with ⟨-, hy⟩ | ⟨c, x', y', rfl, rfl, -⟩
  · cases y with
    | nil => rfl
    | cons c y => exact hp c hy
  · exact hx

theorem head?_of_foundAt_eq {x y : Text} (h : foundAt x = foundAt y) {c : Char}
    (hc : isLineTerminator c = false) (hy : y.head? = some c) : x.head? = some c := by
  rcases foundAt_cases h with ⟨-, he⟩ | ⟨d, x', y', rfl, rfl, -⟩
  · simp [endsLine, hy, hc] at he
  · exact hy

theorem head?_eq_iff_of_foundAt_eq {x y : Text} (h : foundAt x = foundAt y) {c : Char}
    (hc : isLineTerminator c = false) : y.head? = some c ↔ x.head? = some c :=
  ⟨head?_of_foundAt_eq h hc, head?_of_foundAt_eq h.symm hc⟩

theorem isLineTerminator_of_isDigit {c : Char} (h : c.isDigit) : isLineTerminator c = false := by
  rw [Bool.eq_false_iff]
  intro hc
  simp only [isLineTerminator, Bool.or_eq_true, decide_eq_true_eq] at hc
  rcases hc with rfl | rfl <;> simp at h

theorem takeWhile_append_of_foundAt_eq {p : Char → Bool}
    (hp : ∀ c, p c → isLineTerminator c = false) {a x y : Text}
    (ha : (a ++ x).takeWhile p = a) (h : foundAt x = foundAt y) : (a ++ y).takeWhile p = a := by
  apply takeWhile_append_of_head? ha
  intro c hy
  rw [Bool.eq_false_iff]
  intro hc
  have hx := head?_not_of_takeWhile ha (head?_of_foundAt_eq h (hp c hc) hy)
  simp [hc] at hx

namespace RegexEscape

theorem text_scan (t : Text) : (scan t).text = '\\' :: foundAt t := by
  cases t with
  | nil => rfl
  | cons c t =>
    rw [foundAt_cons]
    cases hc : isLineTerminator c <;> simp [scan, text, hc]

theorem filter_head?_of_endsLine {t : Text} (h : endsLine t) :
    t.head?.filter (!isLineTerminator ·) = none := by
  cases t with
  | nil => rfl
  | cons c t =>
    have hc : isLineTerminator c := h
    simp [Option.filter, hc]

theorem scan_congr {x y : Text} (h : foundAt x = foundAt y) : scan x = scan y := by
  rcases foundAt_cases h with ⟨hx, hy⟩ | ⟨c, x', y', rfl, rfl, -⟩
  · rw [scan, scan, filter_head?_of_endsLine hx, filter_head?_of_endsLine hy]
  · rfl

theorem foundAt_prefix (t : Text) : foundAt t <+: t := by
  cases t with
  | nil => exact List.nil_prefix
  | cons c t =>
    rw [foundAt_cons]
    split
    · exact List.nil_prefix
    · exact ⟨t, rfl⟩

theorem exists_split (t : Text) : ∃ a r, t = a ++ r ∧ (scan t).text = '\\' :: a := by
  obtain ⟨r, hr⟩ := foundAt_prefix t
  exact ⟨_, r, hr.symm, text_scan t⟩

@[simp] theorem text_trace (e : RegexEscape) : e.trace.text = e.text := by
  cases h : e.escaped with
  | none => simp [trace, text, h]
  | some c =>
    simp only [trace, text, h, Trace.text_read, Trace.text_append, Option.toList_some]
    split <;> simp

end RegexEscape

namespace SkippedPiece

def stopsAt (t : Text) : Bool := t.head?.all fun c => c = '/' || isLineTerminator c

def step (c : Char) (t : Text) : SkippedPiece :=
  if c = '\\' then escape (RegexEscape.scan t) else char c

theorem exists_split (c : Char) (t : Text) : ∃ w r, t = w ++ r ∧ (step c t).text = c :: w := by
  by_cases hc : c = '\\'
  · obtain ⟨w, r, ht, hw⟩ := RegexEscape.exists_split t
    exact ⟨w, r, ht, by rw [step, if_pos hc, text, hw, hc]⟩
  · exact ⟨[], t, rfl, by rw [step, if_neg hc, text]⟩

theorem step_resume {c : Char} {x y : Text} (h : foundAt x = foundAt y) : step c y = step c x := by
  rw [step, step, RegexEscape.scan_congr h]

/-- A scan stops behind a brace. -/
theorem pieceScan : PieceScan (fun (closed : Bool) t => if closed then [] else scan t) text
    (fun closed t => closed || stopsAt t) (fun _ => step)
    (fun _ p => decide (p = char '\x7d')) where
  stopsAt_nil := by
    intro closed
    cases closed <;> rfl
  stop := by
    intro closed t hs
    cases closed with
    | true => rfl
    | false =>
      cases t with
      | nil => exact scan.eq_1
      | cons c t =>
        rw [if_neg (by decide), scan]
        exact if_pos (by simpa [stopsAt] using hs)
  piece := fun _ => exists_split _ _
  go := by
    intro closed c t hs
    obtain ⟨rfl, hs⟩ : closed = false ∧ stopsAt (c :: t) = false := by simpa using hs
    have hstop : ¬ (c = '/' || isLineTerminator c) = true := by simpa [stopsAt] using hs
    rw [if_neg (by decide), scan, if_neg hstop]
    by_cases hb : c = '\x7d'
    · simp [hb, step]
    · by_cases hc : c = '\\'
      · simp [hc, step, text]
      · simp [hb, hc, step, text]

@[simp] theorem text_trace (p : SkippedPiece) : p.trace.text = p.text := by
  cases p <;> simp [trace, text]

theorem scan_prefix (t : Text) : (scan t).flatMap text <+: t :=
  pieceScan.flatMap_prefix false t

theorem scan_resume {a x y : Text} (ha : (scan (a ++ x)).flatMap text = a)
    (h : foundAt x = foundAt y) : scan (a ++ y) = scan (a ++ x) := by
  refine pieceScan.resume (s := false) (P := fun _ => True) (fun _ => trivial) ?_ ?_ ha trivial
  · intro closed _ hs
    simp only [Bool.or_eq_true] at hs ⊢
    exact hs.imp_right (all_head?_of_foundAt_eq (fun c hc => by simp [hc]) h)
  · intro closed c w a _ hs _
    exact ⟨hs, step_resume (foundAt_append w (foundAt_append a h))⟩

end SkippedPiece

namespace BoundsEnd

@[simp] theorem text_trace (e : BoundsEnd) : e.trace.text = e.text := by
  cases e <;> simp [trace, text]

theorem scan_prefix (t : Text) : (scan t).text <+: t := by
  unfold scan
  split
  · rename_i h
    obtain ⟨t, rfl⟩ := List.head?_eq_some_iff.mp h
    exact ⟨t, rfl⟩
  · exact SkippedPiece.scan_prefix t

theorem scan_resume {a x y : Text} (ha : (scan (a ++ x)).text = a) (h : foundAt x = foundAt y) :
    scan (a ++ y) = scan (a ++ x) := by
  have hf := foundAt_append a h
  have hb := head?_eq_iff_of_foundAt_eq hf (c := '\x7d') (by decide)
  unfold scan at ha ⊢
  by_cases hx : (a ++ x).head? = some '\x7d'
  · rw [if_pos hx, if_pos (hb.mpr hx)]
  · rw [if_neg hx] at ha
    rw [if_neg hx, if_neg (fun hy => hx (hb.mp hy)), hf, SkippedPiece.scan_resume ha h]

end BoundsEnd

namespace Quantifier

theorem text_order (n : Nat) (low : Text) (high : Option Text) : (order n low high).text = [] := by
  unfold order
  split <;> simp

@[simp] theorem text_trace (q : Quantifier) : q.trace.text = q.text := by
  cases q <;> simp [trace, text, text_order]

theorem highAt_prefix (t : Text) : highText (highAt t) <+: t := by
  unfold highAt
  split
  · exact (List.prefix_cons_inj ',').mpr (List.takeWhile_prefix _)
  · exact List.nil_prefix

theorem highAt_eq_none {t : Text} (h : t.head? ≠ some ',') : highAt t = none := by
  unfold highAt
  split
  · simp at h
  · rfl

theorem highAt_resume {a x y : Text} (ha : highText (highAt (a ++ x)) = a)
    (h : foundAt x = foundAt y) : highAt (a ++ y) = highAt (a ++ x) := by
  have hc := head?_eq_iff_of_foundAt_eq (foundAt_append a h) (c := ',') (by decide)
  by_cases hx : (a ++ x).head? = some ','
  · obtain ⟨t, ht⟩ := List.head?_eq_some_iff.mp hx
    rw [ht] at ha
    obtain ⟨d, rfl⟩ : ∃ d, a = ',' :: d := ⟨_, ha.symm⟩
    obtain rfl : d ++ x = t := by simpa using ht
    have hd : (d ++ x).takeWhile Char.isDigit = d := by simpa [highAt, highText] using ha
    have hd' := takeWhile_append_of_foundAt_eq (fun _ => isLineTerminator_of_isDigit) hd h
    simp only [List.cons_append, highAt, hd, hd']
  · rw [highAt_eq_none hx, highAt_eq_none (fun hy => hx (hc.mp hy))]

structure Bounds (t low : Text) (high : Option Text) (ending : BoundsEnd) (r : Text) : Prop where
  text : t = low ++ (highText high ++ (ending.text ++ r))
  low : t.takeWhile Char.isDigit = low
  high : highAt (highText high ++ (ending.text ++ r)) = high
  ending : BoundsEnd.scan (ending.text ++ r) = ending

theorem exists_bounds (t : Text) : ∃ low high ending r, Bounds t low high ending r := by
  obtain ⟨t₁, h₁⟩ := List.takeWhile_prefix (l := t) Char.isDigit
  obtain ⟨t₂, h₂⟩ := highAt_prefix t₁
  obtain ⟨r, hr⟩ := BoundsEnd.scan_prefix t₂
  exact ⟨_, _, _, r, by rw [hr, h₂, h₁], rfl, by rw [hr, h₂], by rw [hr]⟩

theorem Bounds.scan_eq {t low r : Text} {high : Option Text} {ending : BoundsEnd}
    (h : Bounds t low high ending r) (hl : low ≠ []) :
    scanBounds t = bounds low high ending (r.head? = some '?') := by
  have h₁ : t.drop low.length = highText high ++ (ending.text ++ r) := by
    rw [h.text, List.drop_left]
  have h₂ : (highText high ++ (ending.text ++ r)).drop (highText high).length =
      ending.text ++ r := List.drop_left
  have he : low.isEmpty = false := by simpa using hl
  simp only [scanBounds, h.low, he, h₁, h.high, h₂, h.ending, List.drop_left]
  rfl

theorem scanBounds_of_not_digit {t : Text} (h : t.takeWhile Char.isDigit = []) :
    scanBounds t = noNumber (foundAt t) := by
  simp [scanBounds, h]

theorem Bounds.resume {low x y : Text} {high : Option Text} {ending : BoundsEnd}
    (hb : Bounds (low ++ (highText high ++ (ending.text ++ x))) low high ending x)
    (h : foundAt x = foundAt y) :
    Bounds (low ++ (highText high ++ (ending.text ++ y))) low high ending y where
  text := rfl
  low := takeWhile_append_of_foundAt_eq (fun _ => isLineTerminator_of_isDigit) hb.low
    (foundAt_append _ (foundAt_append _ h))
  high := by
    have hh := highAt_resume (a := highText high) (by rw [hb.high]) (foundAt_append ending.text h)
    rw [hh, hb.high]
  ending := by
    have he := BoundsEnd.scan_resume (a := ending.text) (by rw [hb.ending]) h
    rw [he, hb.ending]

theorem lazyText_prefix (t : Text) : lazyText (t.head? = some '?') <+: t := by
  by_cases h : t.head? = some '?'
  · obtain ⟨t, rfl⟩ := List.head?_eq_some_iff.mp h
    exact ⟨t, rfl⟩
  · simp [lazyText, h]

theorem exists_text_scanBounds (t : Text) : ∃ a, (scanBounds t).text = '\x7b' :: a := by
  unfold scanBounds
  dsimp only
  split <;> exact ⟨_, rfl⟩

theorem scanBounds_prefix (t : Text) : (scanBounds t).text <+: '\x7b' :: t := by
  by_cases hl : t.takeWhile Char.isDigit = []
  · rw [scanBounds_of_not_digit hl]
    exact ⟨t, rfl⟩
  · obtain ⟨low, high, ending, r, h⟩ := exists_bounds t
    obtain ⟨r', hr⟩ := lazyText_prefix r
    refine ⟨r', ?_⟩
    rw [h.scan_eq (h.low ▸ hl), h.text]
    simp only [text, List.cons_append, List.append_assoc, hr]

theorem scanBounds_resume {a x y : Text} (ha : (scanBounds (a ++ x)).text = '\x7b' :: a)
    (h : foundAt x = foundAt y) : scanBounds (a ++ y) = scanBounds (a ++ x) := by
  by_cases hl : (a ++ x).takeWhile Char.isDigit = []
  · rw [scanBounds_of_not_digit hl] at ha
    obtain rfl : a = [] := by simpa [text] using ha.symm
    have hy := takeWhile_append_of_foundAt_eq (fun _ => isLineTerminator_of_isDigit) hl h
    rw [scanBounds_of_not_digit hl, scanBounds_of_not_digit hy, foundAt_append [] h]
  · obtain ⟨low, high, ending, r, hb⟩ := exists_bounds (a ++ x)
    have hne : low ≠ [] := hb.low ▸ hl
    have hs := hb.scan_eq hne
    obtain ⟨z, hz⟩ : ∃ z, lazyText (r.head? = some '?') = z := ⟨_, rfl⟩
    rw [hs, text, hz] at ha
    obtain rfl : a = low ++ highText high ++ ending.text ++ z := by simpa using ha.symm
    obtain rfl : z ++ x = r := by simpa using hb.text
    have hq := head?_eq_iff_of_foundAt_eq (foundAt_append z h) (c := '?') (by decide)
    simp only [List.append_assoc] at hb hs ⊢
    rw [hs, (hb.resume (foundAt_append z h)).scan_eq hne]
    simp only [hq]

def isMark (c : Char) : Bool := c = '?' || c = '+' || c = '*'

theorem isLineTerminator_of_isMark {c : Char} (h : isMark c) : isLineTerminator c = false := by
  simp only [isMark, Bool.or_eq_true, decide_eq_true_eq] at h
  rcases h with (rfl | rfl) | rfl <;> decide

theorem scan?_mark {c : Char} (hc : isMark c) (t : Text) :
    scan? (c :: t) = some (mark c (t.head? = some '?')) := if_pos hc

theorem scan?_brace (t : Text) : scan? ('\x7b' :: t) = some (scanBounds t) := by
  simp [scan?]

def begins (t : Text) : Bool := t.head?.any fun c => isMark c || c = '\x7b'

theorem scan?_of_not_begins {t : Text} (h : begins t = false) : scan? t = none := by
  cases t with
  | nil => rfl
  | cons c t =>
    obtain ⟨hm, hb⟩ : isMark c = false ∧ c ≠ '\x7b' := by simpa [begins] using h
    have hm' : ¬ (c = '?' || c = '+' || c = '*') = true := by simpa [isMark] using hm
    rw [scan?, if_neg hm', if_neg hb]

theorem begins_cases {t : Text} (h : begins t) :
    (∃ c r, t = c :: r ∧ isMark c) ∨ ∃ r, t = '\x7b' :: r := by
  cases t with
  | nil => simp [begins] at h
  | cons c t =>
    obtain hm | rfl : isMark c ∨ c = '\x7b' := by simpa [begins] using h
    · exact .inl ⟨c, t, rfl, hm⟩
    · exact .inr ⟨t, rfl⟩

theorem begins_of_foundAt_eq {x y : Text} (h : foundAt x = foundAt y) (hx : begins x) :
    begins y := by
  rcases foundAt_cases h with ⟨he, -⟩ | ⟨c, x', y', rfl, rfl, -⟩
  · rcases begins_cases hx with ⟨c, r, rfl, hc⟩ | ⟨r, rfl⟩
    · simp [endsLine, isLineTerminator_of_isMark hc] at he
    · simp [endsLine, isLineTerminator] at he
  · exact hx

theorem scan?_prefix (t : Text) : (scan? t).elim [] text <+: t := by
  cases hb : begins t with
  | false =>
    rw [scan?_of_not_begins hb]
    exact List.nil_prefix
  | true =>
    rcases begins_cases hb with ⟨c, r, rfl, hc⟩ | ⟨r, rfl⟩
    · rw [scan?_mark hc]
      exact (List.prefix_cons_inj c).mpr <| lazyText_prefix r
    · rw [scan?_brace]
      exact scanBounds_prefix r

theorem scan?_resume {a x y : Text} (ha : (scan? (a ++ x)).elim [] text = a)
    (h : foundAt x = foundAt y) : scan? (a ++ y) = scan? (a ++ x) := by
  cases hb : begins (a ++ x) with
  | false =>
    have hb' : begins (a ++ y) = false := by
      rw [Bool.eq_false_iff]
      intro hy
      simp [begins_of_foundAt_eq (foundAt_append a h).symm hy] at hb
    rw [scan?_of_not_begins hb, scan?_of_not_begins hb']
  | true =>
    rcases begins_cases hb with ⟨c, r, hr, hc⟩ | ⟨r, hr⟩
    · rw [hr, scan?_mark hc] at ha
      obtain ⟨z, rfl⟩ : ∃ z, a = c :: z := ⟨_, ha.symm⟩
      obtain rfl : z ++ x = r := by simpa using hr
      have hq := head?_eq_iff_of_foundAt_eq (foundAt_append z h) (c := '?') (by decide)
      rw [List.cons_append, scan?_mark hc, List.cons_append, scan?_mark hc]
      simp only [hq]
    · rw [hr, scan?_brace] at ha
      obtain ⟨z, hz⟩ := exists_text_scanBounds r
      obtain rfl : a = '\x7b' :: z := ha.symm.trans hz
      obtain rfl : z ++ x = r := by simpa using hr
      rw [List.cons_append, scan?_brace, List.cons_append, scan?_brace,
        scanBounds_resume ha h]

end Quantifier

end EcmaLex
