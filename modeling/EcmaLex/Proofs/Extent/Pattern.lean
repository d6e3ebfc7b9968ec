import EcmaLex.Proofs.Extent.Quantifier
import EcmaLex.Regex.Pattern

/-!
# The extent of patterns

The terms of a pattern are a prefix of its text, and a slash, a line terminator or the end of the
text follows them. They are the same before any other text that shows the same character.
-/

namespace EcmaLex

namespace GroupKind

@[simp] theorem text_trace (k : GroupKind) : k.trace.text = k.text := by
  cases k <;> simp [trace, text]

theorem scan_plain {t : Text} (h : t.head? ≠ some '?') : scan t = plain := by
  unfold scan
  split <;> simp_all

theorem scan_unknown {t : Text} (h : ∀ c ∈ [':', '=', '!', '<'], t.head? ≠ some c) :
    scan ('?' :: t) = unknown (foundAt t) := by
  unfold scan
  split <;> simp_all

theorem scan_angle {t : Text} (h : ∀ c ∈ ['=', '!'], t.head? ≠ some c) :
    scan ('?' :: '<' :: t) = marked ['?', '<'] := by
  apply scan.eq_6
  · rintro t rfl
    simp at h
  · rintro t rfl
    simp at h

def marks : List Text := [['?', ':'], ['?', '='], ['?', '!'], ['?', '<', '='], ['?', '<', '!']]

theorem scan_mark {m : Text} (hm : m ∈ marks) (t : Text) : scan (m ++ t) = marked m := by
  simp only [marks, List.mem_cons, List.not_mem_nil, or_false] at hm
  rcases hm with rfl | rfl | rfl | rfl | rfl <;> rfl

/-- What a scan finds: a mark, an angle bracket alone, another question mark, or nothing. -/
theorem scan_cases (t : Text) :
    (∃ m ∈ marks, ∃ r, t = m ++ r) ∨
    (∃ r, t = '?' :: '<' :: r ∧ ∀ c ∈ ['=', '!'], r.head? ≠ some c) ∨
    (∃ r, t = '?' :: r ∧ ∀ c ∈ [':', '=', '!', '<'], r.head? ≠ some c) ∨
    t.head? ≠ some '?' := by
  by_cases hq : t.head? = some '?'
  · obtain ⟨t, rfl⟩ := List.head?_eq_some_iff.mp hq
    by_cases ht : ∀ c ∈ [':', '=', '!', '<'], t.head? ≠ some c
    · exact .inr (.inr (.inl ⟨t, rfl, ht⟩))
    · simp only [not_forall, not_not] at ht
      obtain ⟨c, hc, ht⟩ := ht
      obtain ⟨t, rfl⟩ := List.head?_eq_some_iff.mp ht
      by_cases hangle : c = '<'
      · subst hangle
        by_cases hr : ∀ c ∈ ['=', '!'], t.head? ≠ some c
        · exact .inr (.inl ⟨t, rfl, hr⟩)
        · simp only [not_forall, not_not] at hr
          obtain ⟨d, hd, hr⟩ := hr
          obtain ⟨t, rfl⟩ := List.head?_eq_some_iff.mp hr
          exact .inl ⟨['?', '<', d], by simp_all [marks], t, rfl⟩
      · exact .inl ⟨['?', c], by simp_all [marks], t, rfl⟩
  · exact .inr (.inr (.inr hq))

theorem scan_prefix (t : Text) : (scan t).text <+: t := by
  rcases scan_cases t with ⟨m, hm, r, rfl⟩ | ⟨r, rfl, hr⟩ | ⟨r, rfl, hr⟩ | hq
  · rw [scan_mark hm]
    exact ⟨r, rfl⟩
  · rw [scan_angle hr]
    exact ⟨r, rfl⟩
  · rw [scan_unknown hr]
    exact ⟨r, rfl⟩
  · rw [scan_plain hq]
    exact List.nil_prefix

theorem head?_ne_of_foundAt_eq {x y : Text} (h : foundAt x = foundAt y) {cs : Text}
    (hcs : ∀ c ∈ cs, isLineTerminator c = false) (hx : ∀ c ∈ cs, x.head? ≠ some c) :
    ∀ c ∈ cs, y.head? ≠ some c := by
  intro c hc hy
  exact hx c hc (head?_of_foundAt_eq h (hcs c hc) hy)

theorem scan_resume {a x y : Text} (ha : (scan (a ++ x)).text = a) (h : foundAt x = foundAt y) :
    scan (a ++ y) = scan (a ++ x) := by
  rcases scan_cases (a ++ x) with ⟨m, hm, r, ht⟩ | ⟨r, ht, hr⟩ | ⟨r, ht, hr⟩ | hq
  · rw [ht, scan_mark hm] at ha
    obtain rfl : m = a := ha
    rw [scan_mark hm, scan_mark hm]
  · rw [ht, scan_angle hr] at ha
    obtain rfl : a = ['?', '<'] := ha.symm
    obtain rfl : x = r := by simpa using ht
    have hy := head?_ne_of_foundAt_eq h (by simp [isLineTerminator]) hr
    exact (scan_angle hy).trans (scan_angle hr).symm
  · rw [ht, scan_unknown hr] at ha
    obtain rfl : a = ['?'] := ha.symm
    obtain rfl : x = r := by simpa using ht
    have hy := head?_ne_of_foundAt_eq h (by simp [isLineTerminator]) hr
    exact (scan_unknown hy).trans (h ▸ (scan_unknown hr).symm)
  · rw [scan_plain hq] at ha
    obtain rfl : a = [] := ha.symm
    rw [scan_plain hq, scan_plain]
    exact fun hy => hq (head?_of_foundAt_eq h (by decide) hy)

end GroupKind

namespace ClassItem

def stopsAt (t : Text) : Bool := t.head?.all fun c => c = ']' || isLineTerminator c

def step (c : Char) (t : Text) : ClassItem :=
  if c = '-' then hyphen
  else if c = '\\' then escape (RegexEscape.scan t)
  else char c

theorem exists_split (c : Char) (t : Text) : ∃ w r, t = w ++ r ∧ (step c t).text = c :: w := by
  unfold step
  split
  · rename_i hc
    exact ⟨[], t, rfl, by rw [text, hc]⟩
  · split
    · rename_i hc
      obtain ⟨w, r, ht, hw⟩ := RegexEscape.exists_split t
      exact ⟨w, r, ht, by rw [text, hw, hc]⟩
    · exact ⟨[], t, rfl, rfl⟩

theorem step_resume {c : Char} {x y : Text} (h : foundAt x = foundAt y) : step c y = step c x := by
  rw [step, step, RegexEscape.scan_congr h]

theorem pieceScan : PieceScan (fun (_ : Unit) => scan) text (fun _ => stopsAt) (fun _ => step)
    (fun _ _ => ()) where
  stopsAt_nil := fun _ => rfl
  stop := by
    intro _ t hs
    cases t with
    | nil => exact scan.eq_1
    | cons c t =>
      rw [scan]
      exact if_pos (by simpa [stopsAt] using hs)
  piece := fun _ => exists_split _ _
  go := by
    intro _ c t hs
    rw [scan, if_neg (by simpa [stopsAt] using hs)]
    by_cases hh : c = '-'
    · simp [hh, step, text]
    · by_cases hc : c = '\\'
      · simp [hc, step, text]
      · simp [hh, hc, step, text]

theorem scan_resume {a x y : Text} (ha : (scan (a ++ x)).flatMap text = a)
    (h : foundAt x = foundAt y) : scan (a ++ y) = scan (a ++ x) := by
  refine pieceScan.resume (s := ()) (P := fun _ => True) (fun _ => trivial) ?_ ?_ ha trivial
  · intro _ _ hs
    exact all_head?_of_foundAt_eq (fun c hc => by simp [hc]) h hs
  · intro _ c w a _ hs _
    exact ⟨hs, step_resume (foundAt_append w (foundAt_append a h))⟩

theorem text_trace (slot : ClassSlot) (last : Bool) (i : ClassItem) :
    (i.trace slot last).text = i.text := by
  cases i with
  | hyphen => simp [trace, text]
  | escape e => simp [trace, text]
  | char c =>
    simp only [trace, text, Trace.text_append]
    split <;> simp

theorem text_traces (closed : Bool) (slot : ClassSlot) (items : List ClassItem) :
    (traces closed slot items).text = items.flatMap text ++ if closed then [']'] else [] := by
  induction items generalizing slot with
  | nil => cases closed <;> simp [traces]
  | cons i items ih => simp [traces, text_trace, ih]

end ClassItem

namespace CharacterClass

def caret (negated : Bool) : Text := if negated then ['^'] else []

structure Parts (t : Text) (negated : Bool) (items : List ClassItem) (r : Text) : Prop where
  text : t = caret negated ++ (items.flatMap ClassItem.text ++ r)
  negated : negated = decide (t.head? = some '^')
  items : ClassItem.scan (items.flatMap ClassItem.text ++ r) = items

theorem exists_parts (t : Text) : ∃ negated items r, Parts t negated items r := by
  obtain ⟨t₁, ht⟩ : ∃ t₁, t = caret (t.head? = some '^') ++ t₁ := by
    by_cases h : t.head? = some '^'
    · obtain ⟨t, rfl⟩ := List.head?_eq_some_iff.mp h
      exact ⟨t, rfl⟩
    · exact ⟨t, by simp [caret, h]⟩
  obtain ⟨r, hr⟩ := ClassItem.pieceScan.flatMap_prefix () t₁
  exact ⟨_, _, r, by rw [hr]; exact ht, rfl, by rw [hr]⟩

theorem Parts.scan_eq {t r : Text} {negated : Bool} {items : List ClassItem}
    (h : Parts t negated items r) : scan t = ⟨negated, items, r.head? = some ']'⟩ := by
  have ht : (if t.head? = some '^' then t.tail else t) = items.flatMap ClassItem.text ++ r := by
    have hn := h.negated
    have htext := h.text
    cases negated with
    | true =>
      rw [if_pos (by simpa using hn.symm), htext]
      rfl
    | false =>
      rw [if_neg (by simpa using hn.symm), htext]
      rfl
  simp only [scan, ht, h.items, List.drop_left, ← h.negated]

theorem Parts.resume {negated : Bool} {items : List ClassItem} {x y : Text}
    (hp : Parts (caret negated ++ (items.flatMap ClassItem.text ++ x)) negated items x)
    (h : foundAt x = foundAt y) :
    Parts (caret negated ++ (items.flatMap ClassItem.text ++ y)) negated items y where
  text := rfl
  negated := by
    have hf := foundAt_append (caret negated) (foundAt_append (items.flatMap ClassItem.text) h)
    have hh := head?_eq_iff_of_foundAt_eq hf (c := '^') (by decide)
    simp only [hh]
    exact hp.negated
  items := by
    have hi := ClassItem.scan_resume (a := items.flatMap ClassItem.text) (by rw [hp.items]) h
    rw [hi, hp.items]

theorem text_eq (k : CharacterClass) : k.text = '[' :: (caret k.negated ++
    (k.items.flatMap ClassItem.text ++ if k.closed then [']'] else [])) := by
  simp [text, caret]

theorem exists_split (t : Text) : ∃ w r, t = w ++ r ∧ (scan t).text = '[' :: w := by
  obtain ⟨negated, items, r, h⟩ := exists_parts t
  by_cases hr : r.head? = some ']'
  · obtain ⟨r', rfl⟩ := List.head?_eq_some_iff.mp hr
    refine ⟨caret negated ++ (items.flatMap ClassItem.text ++ [']']), r', ?_, ?_⟩
    · rw [h.text]
      simp
    · rw [h.scan_eq, text_eq]
      simp
  · refine ⟨caret negated ++ items.flatMap ClassItem.text, r, ?_, ?_⟩
    · rw [h.text]
      simp
    · rw [h.scan_eq, text_eq]
      simp [hr]

theorem scan_resume {a x y : Text} (ha : (scan (a ++ x)).text = '[' :: a)
    (h : foundAt x = foundAt y) : scan (a ++ y) = scan (a ++ x) := by
  obtain ⟨negated, items, r, hp⟩ := exists_parts (a ++ x)
  have hs := hp.scan_eq
  obtain ⟨z, hz⟩ : ∃ z : Text, (if r.head? = some ']' then [']'] else []) = z := ⟨_, rfl⟩
  rw [hs, text_eq, List.cons_inj_right] at ha
  simp only [decide_eq_true_eq, hz] at ha
  subst ha
  obtain rfl : z ++ x = r := by simpa using hp.text
  have hh := head?_eq_iff_of_foundAt_eq (foundAt_append z h) (c := ']') (by decide)
  simp only [List.append_assoc] at hp hs ⊢
  rw [hs, (hp.resume (foundAt_append z h)).scan_eq]
  simp only [hh]

@[simp] theorem text_trace (k : CharacterClass) : k.trace.text = k.text := by
  rw [text_eq, trace, Trace.text_append, ClassItem.text_traces, opening, caret]
  cases k.negated <;> simp

end CharacterClass

end EcmaLex
