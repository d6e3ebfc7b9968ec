import EcmaLex.Text.Digits
import Mathlib.Data.List.TakeWhile
import Mathlib.Data.Nat.Digits.Defs
import Mathlib.Tactic.Ring

/-!
# Runs of digits

The value of a run of digits is the one of its parts, each at its place. Zeros before it do not
count. A run that is read into a word of 32 bits has its value or, if that does not fit, none.
-/

namespace EcmaLex

theorem isHexDigit_iff {c : Char} : isHexDigit c ↔
    48 ≤ c.toNat ∧ c.toNat ≤ 57 ∨ 97 ≤ c.toNat ∧ c.toNat ≤ 102 ∨ 65 ≤ c.toNat ∧ c.toNat ≤ 70 := by
  simp only [isHexDigit, Bool.or_eq_true, Bool.and_eq_true, decide_eq_true_eq, or_assoc]
  rfl

theorem hexValue_eq (c : Char) : hexValue c =
    if c.toNat ≤ 57 then c.toNat - 48 else if c.toNat ≤ 70 then c.toNat - 55 else c.toNat - 87 :=
  rfl

variable {radix : Nat} {c : Char} {s t : Text}

theorem isDigitOf_iff : isDigitOf radix c ↔ isHexDigit c ∧ hexValue c < radix := by
  simp only [isDigitOf, Bool.and_eq_true, decide_eq_true_eq]

theorem isDigitOf_of_isDigit (hradix : 10 ≤ radix) (hc : c.isDigit) : isDigitOf radix c := by
  have hrange : 48 ≤ c.toNat ∧ c.toNat ≤ 57 := by simpa [Char.isDigit_iff_toNat] using hc
  rw [isDigitOf_iff, isHexDigit_iff, hexValue_eq, if_pos hrange.2]
  omega

theorem isDigitOf_ten (c : Char) : isDigitOf 10 c = c.isDigit := by
  rw [Bool.eq_iff_iff]
  refine ⟨fun h => ?_, isDigitOf_of_isDigit le_rfl⟩
  rw [isDigitOf_iff, isHexDigit_iff, hexValue_eq] at h
  have hrange : 48 ≤ c.toNat ∧ c.toNat ≤ 57 := by
    split at h
    · omega
    split at h
    · omega
    · omega
  simpa [Char.isDigit_iff_toNat] using hrange

theorem hexValue_lt (hc : isHexDigit c) : hexValue c < 16 := by
  rw [isHexDigit_iff] at hc
  rw [hexValue_eq]
  split
  · omega
  split
  · omega
  · omega

@[simp] theorem ofDigits_nil : ofDigits radix [] = 0 := rfl

theorem ofDigits_cons (c : Char) (t : Text) :
    ofDigits radix (c :: t) = hexValue c * radix ^ t.length + ofDigits radix t := by
  have hfold : ∀ (n : Nat) (t : Text), t.foldl (fun n c => n * radix + hexValue c) n =
      n * radix ^ t.length + ofDigits radix t := by
    intro n t
    induction t generalizing n with
    | nil => simp
    | cons d t ih =>
      have hcons : ofDigits radix (d :: t) =
          t.foldl (fun n c => n * radix + hexValue c) (0 * radix + hexValue d) := rfl
      rw [hcons, List.foldl_cons, ih, ih (0 * radix + hexValue d), List.length_cons, pow_succ]
      ring
  have hcons : ofDigits radix (c :: t) =
      t.foldl (fun n c => n * radix + hexValue c) (0 * radix + hexValue c) := rfl
  rw [hcons, hfold, zero_mul, zero_add]

theorem ofDigits_append (radix : Nat) (s t : Text) :
    ofDigits radix (s ++ t) = ofDigits radix s * radix ^ t.length + ofDigits radix t := by
  induction s with
  | nil => simp
  | cons c s ih =>
    rw [List.cons_append, ofDigits_cons, ih, ofDigits_cons, List.length_append, pow_add]
    ring

theorem ofDigits_concat (radix : Nat) (t : Text) (c : Char) :
    ofDigits radix (t ++ [c]) = ofDigits radix t * radix + hexValue c := by
  rw [ofDigits_append, ofDigits_cons]
  simp

theorem ofDigits_eq_natOfDigits (radix : Nat) (t : Text) :
    ofDigits radix t = Nat.ofDigits radix (t.reverse.map hexValue) := by
  induction t with
  | nil => rfl
  | cons c t ih =>
    rw [ofDigits_cons, ih, List.reverse_cons, List.map_append, Nat.ofDigits_append,
      List.length_map, List.length_reverse, List.map_singleton, Nat.ofDigits_singleton]
    ring

theorem ofDigits_zeros (ht : ∀ c ∈ t, c = '0') : ofDigits radix t = 0 := by
  induction t with
  | nil => rfl
  | cons c t ih =>
    obtain ⟨rfl, hzeros⟩ := List.forall_mem_cons.mp ht
    rw [ofDigits_cons, ih hzeros]
    simp [hexValue]

theorem ofDigits_zeros_append (hs : ∀ c ∈ s, c = '0') (t : Text) :
    ofDigits radix (s ++ t) = ofDigits radix t := by
  rw [ofDigits_append, ofDigits_zeros hs, zero_mul, zero_add]

/-- A number that fits in 32 bits does so on the whole way. -/
theorem accumulate?_eq (hradix : 0 < radix) (ht : ∀ c ∈ t, isDigitOf radix c) {n : Nat}
    (hn : n < 1 <<< 32) : accumulate? radix n t =
      if n * radix ^ t.length + ofDigits radix t < 1 <<< 32 then
        some (n * radix ^ t.length + ofDigits radix t)
      else none := by
  induction t generalizing n with
  | nil =>
    rw [List.length_nil, pow_zero, mul_one, ofDigits_nil, add_zero, if_pos hn]
    rfl
  | cons c t ih =>
    obtain ⟨hc, ht⟩ := List.forall_mem_cons.mp ht
    have hvalue : n * radix ^ (c :: t).length + ofDigits radix (c :: t) =
        (n * radix + hexValue c) * radix ^ t.length + ofDigits radix t := by
      rw [ofDigits_cons, List.length_cons, pow_succ]
      ring
    rw [accumulate?, hc, Bool.true_and, hvalue]
    by_cases hfits : n * radix + hexValue c < 1 <<< 32
    · rw [if_pos (decide_eq_true hfits), ih ht hfits]
    · have hle : n * radix + hexValue c ≤ (n * radix + hexValue c) * radix ^ t.length :=
        Nat.le_mul_of_pos_right _ (Nat.pow_pos hradix)
      rw [if_neg (by simpa using hfits), if_neg (by omega)]

theorem Char.ofCode?_of_le {n : Nat} (h : 1 <<< 32 ≤ n) : Char.ofCode? n = none := by
  refine dif_neg fun hvalid => ?_
  have hlow : n < 0x110000 := hvalid.elim (fun hlt => by omega) And.right
  omega

theorem digits_of_decodeHex? {digits : Text} {c : Char} (h : decodeHex? digits = some c) :
    digits ≠ [] ∧ ∀ d ∈ digits, isHexDigit d := by
  unfold decodeHex? at h
  split at h
  · simp at h
  · rename_i hd
    simpa using hd

/-- The limit of 32 bits leaves out no code of a character. -/
theorem decodeHex?_of_isHexDigit (hne : t ≠ []) (ht : ∀ c ∈ t, isHexDigit c) :
    decodeHex? t = Char.ofCode? (ofDigits 16 t) := by
  have hdigits : ∀ c ∈ t, isDigitOf 16 c := fun c hc =>
    isDigitOf_iff.mpr ⟨ht c hc, hexValue_lt (ht c hc)⟩
  have hcode := accumulate?_eq (n := 0) (by decide) hdigits (by decide)
  have hall : t.all isHexDigit := List.all_eq_true.mpr ht
  rw [zero_mul, zero_add] at hcode
  rw [decodeHex?, if_neg (by simp [hne, hall]), hcode]
  split
  · rfl
  · rename_i hlarge
    rw [Char.ofCode?_of_le (Nat.le_of_not_lt hlarge)]
    rfl

end EcmaLex
