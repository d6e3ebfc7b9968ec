import EcmaLex.Lexeme.Number
import EcmaLex.Proofs.Content
import EcmaLex.Proofs.Echo

/-!
# The extent of numeric literals

A numeric literal is a prefix of its text, and ends at the same place before an echo of what follows
it. Only an exponent looks further ahead than one character: past its letter and its sign.
-/

namespace EcmaLex

open Text (Echoes isOpen isOpen_iff isOpen_of_pos isOpen_of_isDigit takeWhile_append_of_echoes)

theorem isOpen_of_isDigitOf {radix : Nat} {c : Char} (h : isDigitOf radix c) : isOpen c :=
  isOpen_of_pos (by simp [isDigitOf, isHexDigit]) (by simp [isDigitOf, isHexDigit])
    (by simp [isDigitOf, isHexDigit]) h

namespace NumberLiteral

theorem fraction_prefix (t : Text) : fraction t <+: t := by
  unfold fraction
  split
  · exact (List.prefix_cons_inj '.').mpr (List.takeWhile_prefix _)
  · exact List.nil_prefix

theorem fraction_resume {a u v : Text} (ha : fraction (a ++ u) = a) (h : Echoes v u) :
    fraction (a ++ v) = a := by
  cases a with
  | nil =>
    rw [List.nil_append] at ha ⊢
    unfold fraction
    split
    · rename_i v'
      obtain ⟨u', rfl⟩ := h.prefix_of_open (List.prefix_append ['.'] v') (by simp [isOpen_iff])
      simp [fraction] at ha
    · rfl
  | cons c a =>
    rw [List.cons_append] at ha ⊢
    obtain rfl : c = '.' := by
      by_contra hc
      simp [fraction, hc] at ha
    have ht : (a ++ u).takeWhile Char.isDigit = a := by simpa [fraction] using ha
    simp [fraction, takeWhile_append_of_echoes (fun _ => isOpen_of_isDigit) ht h]

def IsSign (s : Text) : Prop := s = [] ∨ s = ['+'] ∨ s = ['-']

theorem exponent_eq_of_isSign {c d : Char} {s t : Text} (hc : c = 'e' ∨ c = 'E') (hs : IsSign s)
    (hd : d.isDigit) :
    exponent (c :: (s ++ d :: t)) = c :: (s ++ (d :: t).takeWhile Char.isDigit) := by
  have hplus : d ≠ '+' := by rintro rfl; simp at hd
  have hminus : d ≠ '-' := by rintro rfl; simp at hd
  rcases hs with rfl | rfl | rfl <;> simp [exponent, hc, hd, hplus, hminus]

theorem exponent_cases {t : Text} (h : exponent t ≠ []) :
    ∃ c s d t', t = c :: (s ++ d :: t') ∧ (c = 'e' ∨ c = 'E') ∧ IsSign s ∧ d.isDigit := by
  cases t with
  | nil => simp [exponent] at h
  | cons c t =>
    have hcond : (c = 'e' ∨ c = 'E') ∧
        (t.drop ((t.take 1).filter fun s => s = '+' || s = '-').length).takeWhile Char.isDigit
          ≠ [] := by
      by_contra hn
      apply h
      simp only [exponent, Bool.and_eq_true, Bool.or_eq_true, decide_eq_true_eq,
        Bool.not_eq_true', List.isEmpty_eq_false_iff]
      exact if_neg hn
    obtain ⟨hc, hd⟩ := hcond
    have hdigit : ∀ r : Text, r.takeWhile Char.isDigit ≠ [] → ∃ d r', r = d :: r' ∧ d.isDigit := by
      intro r hr
      cases r with
      | nil => simp at hr
      | cons d r => exact ⟨d, r, rfl, by simpa [List.takeWhile_cons] using hr⟩
    cases t with
    | nil => simp at hd
    | cons x t =>
      by_cases hx : x = '+' ∨ x = '-'
      · obtain ⟨d, r, rfl, hr⟩ := hdigit t (by simpa [hx] using hd)
        exact ⟨c, [x], d, r, rfl, hc, by simpa [IsSign] using hx, hr⟩
      · obtain ⟨d, r, heq, hr⟩ := hdigit (x :: t) (by simpa [hx] using hd)
        exact ⟨c, [], d, r, by rw [heq, List.nil_append], hc, .inl rfl, hr⟩

theorem exponent_prefix (t : Text) : exponent t <+: t := by
  by_cases h : exponent t = []
  · rw [h]
    exact List.nil_prefix
  · obtain ⟨c, s, d, t, rfl, hc, hs, hd⟩ := exponent_cases h
    rw [exponent_eq_of_isSign hc hs hd, List.prefix_cons_inj, List.prefix_append_right_inj]
    exact List.takeWhile_prefix _

theorem exponent_resume {a u v : Text} (ha : exponent (a ++ u) = a) (h : Echoes v u) :
    exponent (a ++ v) = a := by
  cases a with
  | nil =>
    by_contra hv
    obtain ⟨c, s, d, v', rfl, hc, hs, hd⟩ := exponent_cases hv
    have hopen : ∀ x ∈ c :: s ++ [d], isOpen x := by
      have hd := isOpen_of_isDigit hd
      rcases hc with rfl | rfl <;> rcases hs with rfl | rfl | rfl <;> simp [hd] <;> decide
    obtain ⟨u', rfl⟩ := h.prefix_of_open ⟨v', by simp⟩ hopen
    have hu : c :: s ++ [d] ++ u' = c :: (s ++ d :: u') := by simp
    rw [List.nil_append, hu, exponent_eq_of_isSign hc hs hd] at ha
    simp at ha
  | cons e a =>
    obtain ⟨c, s, d, t, ht, hc, hs, hd⟩ := exponent_cases (t := e :: a ++ u) (by rw [ha]; simp)
    rw [ht, exponent_eq_of_isSign hc hs hd, List.takeWhile_cons_of_pos hd] at ha
    obtain ⟨rfl, rfl⟩ := List.cons.inj ha
    have hu : t.takeWhile Char.isDigit ++ u = t := by simpa using ht
    have hv : (t.takeWhile Char.isDigit ++ v).takeWhile Char.isDigit = t.takeWhile Char.isDigit :=
      takeWhile_append_of_echoes (fun _ => isOpen_of_isDigit) (by rw [hu]) h
    have heq : c :: (s ++ d :: t.takeWhile Char.isDigit) ++ v =
        c :: (s ++ d :: (t.takeWhile Char.isDigit ++ v)) := by simp
    rw [heq, exponent_eq_of_isSign hc hs hd, List.takeWhile_cons_of_pos hd, hv]

theorem announced?_eq_some {t : Text} {form : NumberForm}
    (h : NumberForm.announced? t = some form) :
    ∃ c t', t = '0' :: c :: t' ∧ NumberForm.ofLetter? c = some form := by
  unfold NumberForm.announced? at h
  split at h
  · exact ⟨_, _, rfl, h⟩
  · simp at h

theorem announced?_of_echoes {a u v : Text} (h : Echoes v u) :
    NumberForm.announced? (a ++ v) = none ∨
      NumberForm.announced? (a ++ v) = NumberForm.announced? (a ++ u) := by
  cases hv : NumberForm.announced? (a ++ v) with
  | none => exact .inl rfl
  | some form =>
    obtain ⟨c, t, ht, hc⟩ := announced?_eq_some hv
    have hletter : (NumberForm.ofLetter? c).isSome := by rw [hc, Option.isSome_some]
    have hopen : isOpen c :=
      isOpen_of_pos (p := fun c => (NumberForm.ofLetter? c).isSome) (by decide) (by decide)
        (by decide) hletter
    obtain ⟨r, hr⟩ := (Text.echoes_append a h).prefix_of_open (a := ['0', c]) ⟨t, ht.symm⟩
      (by simpa using ⟨by decide, hopen⟩)
    exact .inr (by rw [← hr, ← hc]; rfl)

theorem extent_announced {c : Char} {form : NumberForm} (hc : NumberForm.ofLetter? c = some form)
    (t : Text) : extent ('0' :: c :: t) = '0' :: c :: t.takeWhile (isDigitOf form.radix) := by
  have hn : NumberForm.announced? ('0' :: c :: t) = some form := hc
  simp [extent, hn]

structure Decimal (t i f e r : Text) : Prop where
  text : t = i ++ (f ++ (e ++ r))
  integer : t.takeWhile Char.isDigit = i
  fraction : fraction (f ++ (e ++ r)) = f
  exponent : exponent (e ++ r) = e

theorem exists_decimal (t : Text) : ∃ i f e r, Decimal t i f e r := by
  obtain ⟨t₁, h₁⟩ := List.takeWhile_prefix (l := t) Char.isDigit
  obtain ⟨t₂, h₂⟩ := fraction_prefix t₁
  obtain ⟨r, hr⟩ := exponent_prefix t₂
  exact ⟨_, _, _, r, by rw [hr, h₂, h₁], rfl, by rw [hr, h₂], by rw [hr]⟩

theorem Decimal.extent_eq {t i f e r : Text} (h : Decimal t i f e r)
    (hn : NumberForm.announced? t = none) : extent t = i ++ f ++ e := by
  have hi : t.drop i.length = f ++ (e ++ r) := by rw [h.text, List.drop_left]
  have hf : t.drop (i.length + f.length) = e ++ r := by
    rw [← List.drop_drop, hi, List.drop_left]
  simp only [extent, hn, h.integer, hi, h.fraction, hf, h.exponent]

theorem extent_prefix (t : Text) : extent t <+: t := by
  cases hn : NumberForm.announced? t with
  | some form =>
    obtain ⟨c, t, rfl, hc⟩ := announced?_eq_some hn
    rw [extent_announced hc, List.prefix_cons_inj, List.prefix_cons_inj]
    exact List.takeWhile_prefix _
  | none =>
    obtain ⟨i, f, e, r, h⟩ := exists_decimal t
    exact ⟨r, by rw [h.extent_eq hn, h.text]; simp⟩

theorem Decimal.resume {i f e u v : Text} (hd : Decimal (i ++ f ++ e ++ u) i f e u)
    (h : Echoes v u) : Decimal (i ++ f ++ e ++ v) i f e v where
  text := by simp
  integer := by
    have hi := hd.integer
    rw [List.append_assoc, List.append_assoc] at hi ⊢
    exact takeWhile_append_of_echoes (fun _ => isOpen_of_isDigit) hi
      (Text.echoes_append f (Text.echoes_append e h))
  fraction := fraction_resume hd.fraction (Text.echoes_append e h)
  exponent := exponent_resume hd.exponent h

theorem extent_resume {a u v : Text} (ha : extent (a ++ u) = a) (h : Echoes v u) :
    extent (a ++ v) = a := by
  cases hn : NumberForm.announced? (a ++ u) with
  | some form =>
    obtain ⟨c, t, ht, hc⟩ := announced?_eq_some hn
    rw [ht, extent_announced hc] at ha
    obtain ⟨w, rfl⟩ : ∃ w, a = '0' :: c :: w := ⟨_, ha.symm⟩
    obtain rfl : w ++ u = t := by simpa using ht
    have hw : (w ++ u).takeWhile (isDigitOf form.radix) = w := by simpa using ha
    rw [List.cons_append, List.cons_append, extent_announced hc,
      takeWhile_append_of_echoes (fun _ => isOpen_of_isDigitOf) hw h]
  | none =>
    obtain ⟨i, f, e, r, hd⟩ := exists_decimal (a ++ u)
    rw [hd.extent_eq hn] at ha
    subst ha
    obtain rfl : u = r := by simpa using hd.text
    have hv : NumberForm.announced? (i ++ f ++ e ++ v) = none := by
      rcases announced?_of_echoes (a := i ++ f ++ e) h with hv | hv
      · exact hv
      · rw [hv, hn]
    exact (hd.resume h).extent_eq hv

theorem text_spelling (raw : Text) : (spelling raw).text = [] := by
  unfold spelling
  split <;> simp

end NumberLiteral

namespace Lexeme

variable [Primitives]

theorem raw_number (t : Text) : (number t).raw = NumberLiteral.extent t := by
  simp [raw, number, NumberLiteral.text_spelling]

theorem number_prefix (t : Text) : (number t).raw <+: t := by
  rw [raw_number]
  exact NumberLiteral.extent_prefix t

theorem number_resume {a u v : Text} (ha : (number (a ++ u)).raw = a) (h : Echoes v u) :
    (number (a ++ v)).content = (number (a ++ u)).content := by
  rw [raw_number] at ha
  have hv := NumberLiteral.extent_resume ha h
  apply content_eq
  · rw [raw_number, raw_number, ha, hv]
  · simp only [number, ha, hv]
  · simp only [number, ha, hv]
  · rfl

end Lexeme

end EcmaLex
