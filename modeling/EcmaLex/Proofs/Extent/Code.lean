import EcmaLex.Text.CodePoint
import EcmaLex.Proofs.Echo

/-!
# The extent of written codes

The code of an escape is there in full or is not taken at all. Where it is taken, it is a prefix of
the text, whatever follows it. Where it is not, an echo of the text holds no code either.
-/

namespace EcmaLex

open Text (Echoes isOpen isOpen_of_pos)

theorem isOpen_of_isHexDigit {c : Char} (h : isHexDigit c) : isOpen c :=
  isOpen_of_pos (by decide) (by decide) (by decide) h

/-- A reader of codes takes a code that starts its text, whatever follows it. -/
structure ReadsCode (f : Text → Option WrittenCode) : Prop where
  isPrefix : ∀ {t w}, f t = some w → w.raw <+: t
  open_raw : ∀ {t w}, f t = some w → ∀ c ∈ w.raw, isOpen c
  append : ∀ {t w}, f t = some w → ∀ v, f (w.raw ++ v) = some w

namespace ReadsCode

variable {f : Text → Option WrittenCode} (hf : ReadsCode f)

include hf in
theorem eq_some_of_echoes {u v : Text} {w : WrittenCode} (h : Echoes v u) (hv : f v = some w) :
    f u = some w := by
  obtain ⟨u', rfl⟩ := h.prefix_of_open (hf.isPrefix hv) (hf.open_raw hv)
  exact hf.append hv u'

include hf in
theorem resume {a u v : Text} (ha : (f (a ++ u)).elim [] WrittenCode.raw = a) (h : Echoes v u) :
    f (a ++ v) = f (a ++ u) := by
  cases hu : f (a ++ u) with
  | some w =>
    obtain rfl : w.raw = a := by simpa [hu] using ha
    exact hf.append hu v
  | none =>
    obtain rfl : a = [] := by simpa [hu] using ha.symm
    cases hv : f v with
    | none => exact hv
    | some w => simp [hf.eq_some_of_echoes h hv] at hu

end ReadsCode

namespace WrittenCode

theorem readsCode_fixed? (n : Nat) : ReadsCode (fixed? n) where
  isPrefix := by
    intro t w h
    simp only [fixed?, Option.ite_none_right_eq_some, Option.some.injEq] at h
    rw [← h.2]
    exact List.take_prefix n t
  open_raw := by
    intro t w h c hc
    simp only [fixed?, Option.ite_none_right_eq_some, Option.some.injEq, Bool.and_eq_true,
      List.all_eq_true] at h
    rw [← h.2] at hc
    exact isOpen_of_isHexDigit (h.1.2 c hc)
  append := by
    intro t w h v
    simp only [fixed?, Option.ite_none_right_eq_some, Option.some.injEq, Bool.and_eq_true,
      decide_eq_true_eq] at h
    obtain ⟨⟨hn, hd⟩, rfl⟩ := h
    have htake : (t.take n ++ v).take n = t.take n := List.take_left' hn
    simp [fixed?, htake, hn, hd]

theorem braced?_eq_some {t : Text} {w : WrittenCode} (h : braced? t = some w) :
    ∃ t', t = w.digits ++ '}' :: t' ∧ w.raw = '{' :: w.digits ++ ['}'] ∧
      w.digits ≠ [] ∧ w.digits.length ≤ 6 ∧ ∀ c ∈ w.digits, isHexDigit c := by
  simp only [braced?, Option.ite_none_right_eq_some, Option.some.injEq, Bool.and_eq_true,
    decide_eq_true_eq] at h
  obtain ⟨⟨⟨hne, hlen⟩, hclose⟩, rfl⟩ := h
  refine ⟨(t.drop (t.takeWhile isHexDigit).length).tail, ?_, rfl, by simpa using hne, hlen,
    fun c hc => List.mem_takeWhile_imp hc⟩
  have hcons : t.drop (t.takeWhile isHexDigit).length =
      '}' :: (t.drop (t.takeWhile isHexDigit).length).tail := by
    cases hd : t.drop (t.takeWhile isHexDigit).length with
    | nil => simp [hd] at hclose
    | cons c r => simpa [hd] using hclose
  rw [← hcons]
  exact (List.prefix_iff_eq_append.mp (List.takeWhile_prefix _)).symm

theorem braced?_append {w : WrittenCode} (hraw : w.raw = '{' :: w.digits ++ ['}'])
    (hne : w.digits ≠ []) (hlen : w.digits.length ≤ 6) (hhex : ∀ c ∈ w.digits, isHexDigit c)
    (v : Text) : braced? (w.digits ++ '}' :: v) = some w := by
  have htake : (w.digits ++ '}' :: v).takeWhile isHexDigit = w.digits := by
    rw [List.takeWhile_append_of_pos hhex, List.takeWhile_cons_of_neg (by decide), List.append_nil]
  simp [braced?, htake, hne, hlen, ← hraw]

theorem readsCode_unicode? : ReadsCode unicode? where
  isPrefix := by
    intro t w h
    unfold unicode? at h
    split at h
    · obtain ⟨t', rfl, hraw, -⟩ := braced?_eq_some h
      exact ⟨t', by simp [hraw]⟩
    · exact (readsCode_fixed? 4).isPrefix h
  open_raw := by
    intro t w h
    unfold unicode? at h
    split at h
    · obtain ⟨t', rfl, hraw, -, -, hhex⟩ := braced?_eq_some h
      intro c hc
      rw [hraw] at hc
      simp only [List.cons_append, List.mem_cons, List.mem_append, List.not_mem_nil,
        or_false] at hc
      rcases hc with rfl | hc | rfl
      · rfl
      · exact isOpen_of_isHexDigit (hhex c hc)
      · rfl
    · exact (readsCode_fixed? 4).open_raw h
  append := by
    intro t w h v
    unfold unicode? at h
    split at h
    · obtain ⟨t', rfl, hraw, hne, hlen, hhex⟩ := braced?_eq_some h
      rw [hraw, List.cons_append, List.cons_append, List.append_assoc, List.singleton_append]
      exact braced?_append hraw hne hlen hhex v
    · have hv := (readsCode_fixed? 4).append h v
      rw [← hv]
      have hhead : ∀ t', w.raw ++ v ≠ '{' :: t' := by
        intro t' heq
        simp only [fixed?, Option.ite_none_right_eq_some, Option.some.injEq, Bool.and_eq_true,
          decide_eq_true_eq, List.all_eq_true] at h
        obtain ⟨⟨hlen, hhex⟩, rfl⟩ := h
        cases ht : t.take 4 with
        | nil => simp [ht] at hlen
        | cons c r =>
          have hc : c = '{' := by simpa [ht] using congrArg List.head? heq
          simp [ht, hc, isHexDigit] at hhex
      exact unicode?.eq_2 _ hhead

def isCodeChar (c : Char) : Bool := isHexDigit c || c = '\x7b' || c = '\x7d'

theorem ne_of_isCodeChar {c d : Char} (hc : isCodeChar c) (hd : isCodeChar d = false) : c ≠ d := by
  rintro rfl
  simp [hd] at hc

theorem isCodeChar_of_mem_fixed? {n : Nat} {t : Text} {w : WrittenCode} (h : fixed? n t = some w) :
    ∀ c ∈ w.raw, isCodeChar c := by
  simp only [fixed?, Option.ite_none_right_eq_some, Option.some.injEq, Bool.and_eq_true,
    List.all_eq_true] at h
  obtain ⟨⟨-, hd⟩, rfl⟩ := h
  intro c hc
  simp [isCodeChar, hd c hc]

theorem isCodeChar_of_mem_unicode? {t : Text} {w : WrittenCode} (h : unicode? t = some w) :
    ∀ c ∈ w.raw, isCodeChar c := by
  unfold unicode? at h
  split at h
  · obtain ⟨-, -, hraw, -, -, hd⟩ := braced?_eq_some h
    intro c hc
    rw [hraw] at hc
    simp only [List.cons_append, List.mem_cons, List.mem_append, List.not_mem_nil,
      or_false] at hc
    rcases hc with rfl | hc | rfl
    · rfl
    · simp [isCodeChar, hd c hc]
    · rfl
  · exact isCodeChar_of_mem_fixed? h

end WrittenCode

end EcmaLex
