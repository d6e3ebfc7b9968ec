import EcmaLex.Proofs.Number.Digits
import Mathlib.Data.List.Induction

/-!
# Hexadecimal codes

The code of a character has one hexadecimal numeral without zeros before it. It may be written in
either case and behind any number of zeros, and however long it is, it is decoded as that character.
No other run is, so that no number counts as what a word of 32 bits would keep of it.
-/

namespace EcmaLex

/-- A text writes a number in hexadecimal digits of either case, behind any number of zeros. -/
def IsHexNumeral (w : Text) (n : Nat) : Prop :=
  ∃ zeros, w.map Char.toLower = List.replicate zeros '0' ++ Nat.toDigits 16 n

variable {w : Text} {c : Char} {d n : Nat}

theorem toNat_toLower (c : Char) :
    c.toLower.toNat = if 65 ≤ c.toNat ∧ c.toNat ≤ 90 then c.toNat + 32 else c.toNat := by
  have hupper : c.val ≥ 'A'.val ∧ c.val ≤ 'Z'.val ↔ 65 ≤ c.toNat ∧ c.toNat ≤ 90 := Iff.rfl
  unfold Char.toLower
  split
  · rename_i h
    have hcode : c.val.toNat ≤ 90 := (hupper.mp h).2
    have hshift : ('a'.val - 'A'.val).toNat = 32 := by decide
    have hsum : (c.val + ('a'.val - 'A'.val)).toNat = c.val.toNat + 32 := by
      rw [UInt32.toNat_add, hshift]
      exact Nat.mod_eq_of_lt (by omega)
    rw [if_pos (hupper.mp h)]
    exact hsum
  · rename_i h
    rw [if_neg (mt hupper.mpr h)]

theorem toNat_digitChar (hd : d < 16) :
    d.digitChar.toNat = if d < 10 then d + 48 else d + 87 := by
  have hall : ∀ d < 16, d.digitChar.toNat = if d < 10 then d + 48 else d + 87 := by decide
  exact hall d hd

theorem toLower_eq_digitChar_iff (hd : d < 16) :
    c.toLower = d.digitChar ↔ isHexDigit c ∧ hexValue c = d := by
  rw [← Char.toNat_inj, toNat_toLower, toNat_digitChar hd, isHexDigit_iff, hexValue_eq]
  split_ifs <;> omega

theorem toLower_of_isHexDigit (hc : isHexDigit c) : c.toLower = (hexValue c).digitChar :=
  (toLower_eq_digitChar_iff (hexValue_lt hc)).mpr ⟨hc, rfl⟩

theorem isHexDigit_digitChar (hd : d < 16) :
    isHexDigit d.digitChar ∧ hexValue d.digitChar = d := by
  have hall : ∀ d < 16, isHexDigit d.digitChar ∧ hexValue d.digitChar = d := by decide
  exact hall d hd

/-- The numeral of a number is made of digits in lower case and has the number as its value. -/
theorem toDigits_spec (n : Nat) : (∀ c ∈ Nat.toDigits 16 n, ∃ d < 16, c = d.digitChar) ∧
    ofDigits 16 (Nat.toDigits 16 n) = n := by
  induction n using Nat.strong_induction_on with
  | _ n ih =>
    rw [Nat.toDigits_eq_if (by decide)]
    split
    · rename_i hlt
      refine ⟨fun c hc => ⟨n, hlt, List.mem_singleton.mp hc⟩, ?_⟩
      rw [ofDigits_cons, (isHexDigit_digitChar hlt).2]
      simp
    · obtain ⟨hchars, hvalue⟩ := ih (n / 16) (by omega)
      have hlast : n % 16 < 16 := Nat.mod_lt n (by decide)
      constructor
      · intro c hc
        rcases List.mem_append.mp hc with hc | hc
        · exact hchars c hc
        · exact ⟨n % 16, hlast, List.mem_singleton.mp hc⟩
      · rw [ofDigits_concat, hvalue, (isHexDigit_digitChar hlast).2]
        omega

namespace IsHexNumeral

theorem ne_nil (h : IsHexNumeral w n) : w ≠ [] := by
  obtain ⟨zeros, hw⟩ := h
  rintro rfl
  exact Nat.toDigits_ne_nil (List.append_eq_nil_iff.mp hw.symm).2

theorem forall_isHexDigit (h : IsHexNumeral w n) : ∀ c ∈ w, isHexDigit c := by
  obtain ⟨zeros, hw⟩ := h
  intro c hc
  have hlower : c.toLower ∈ List.replicate zeros '0' ++ Nat.toDigits 16 n :=
    hw ▸ List.mem_map_of_mem hc
  obtain ⟨d, hd, hchar⟩ : ∃ d < 16, c.toLower = d.digitChar := by
    rcases List.mem_append.mp hlower with hzero | hdigit
    · exact ⟨0, by decide, List.eq_of_mem_replicate hzero⟩
    · exact (toDigits_spec n).1 _ hdigit
  exact ((toLower_eq_digitChar_iff hd).mp hchar).1

theorem ofDigits_eq (h : IsHexNumeral w n) : ofDigits 16 w = n := by
  have hlower : ofDigits 16 (w.map Char.toLower) = ofDigits 16 w := by
    have hdigits := h.forall_isHexDigit
    clear h
    induction w with
    | nil => rfl
    | cons c w ih =>
      obtain ⟨hc, hw⟩ := List.forall_mem_cons.mp hdigits
      rw [List.map_cons, ofDigits_cons, ofDigits_cons, List.length_map, ih hw,
        toLower_of_isHexDigit hc, (isHexDigit_digitChar (hexValue_lt hc)).2]
  obtain ⟨zeros, hw⟩ := h
  rw [← hlower, hw, ofDigits_zeros_append (fun c => List.eq_of_mem_replicate), (toDigits_spec n).2]

/-- Any run of digits is a numeral of its value: one more digit behind it is one more digit behind
that numeral, unless so far there were only zeros. -/
theorem of_isHexDigit (hne : w ≠ []) (hw : ∀ c ∈ w, isHexDigit c) :
    IsHexNumeral w (ofDigits 16 w) := by
  induction w using List.reverseRecOn with
  | nil => exact absurd rfl hne
  | append_singleton v c ih =>
    obtain ⟨hv, hc⟩ := List.forall_mem_append.mp hw
    have hc := hc c (List.mem_singleton_self c)
    have hlast : [c].map Char.toLower = Nat.toDigits 16 (hexValue c) := by
      rw [Nat.toDigits_of_lt_base (hexValue_lt hc), List.map_singleton, toLower_of_isHexDigit hc]
    rw [ofDigits_concat]
    by_cases hempty : v = []
    · subst hempty
      exact ⟨0, by simpa using hlast⟩
    · obtain ⟨zeros, hzeros⟩ := ih hempty hv
      rcases Nat.eq_zero_or_pos (ofDigits 16 v) with hzero | hpos
      · refine ⟨zeros + 1, ?_⟩
        rw [List.map_append, hzeros, hlast, hzero, Nat.toDigits_zero, Nat.zero_mul, Nat.zero_add,
          List.replicate_succ']
      · refine ⟨zeros, ?_⟩
        rw [List.map_append, hzeros, hlast, List.append_assoc,
          Nat.toDigits_append_toDigits (by decide) hpos (hexValue_lt hc), Nat.mul_comm]

end IsHexNumeral

theorem isHexNumeral_iff :
    IsHexNumeral w n ↔ w ≠ [] ∧ (∀ c ∈ w, isHexDigit c) ∧ ofDigits 16 w = n := by
  refine ⟨fun h => ⟨h.ne_nil, h.forall_isHexDigit, h.ofDigits_eq⟩, ?_⟩
  rintro ⟨hne, hw, rfl⟩
  exact .of_isHexDigit hne hw

theorem Char.ofCode?_eq_some_iff : Char.ofCode? n = some c ↔ n = c.toNat := by
  unfold Char.ofCode?
  constructor
  · intro h
    by_cases hvalid : n.isValidChar
    · rw [dif_pos hvalid] at h
      obtain rfl := Option.some.inj h
      rfl
    · rw [dif_neg hvalid] at h
      cases h
  · rintro rfl
    exact dif_pos c.valid

theorem Char.isSome_ofCode?_iff : (Char.ofCode? n).isSome ↔ n.isValidChar := by
  unfold Char.ofCode?
  by_cases hvalid : n.isValidChar
  · rw [dif_pos hvalid]
    exact iff_of_true rfl hvalid
  · rw [dif_neg hvalid]
    exact iff_of_false Bool.false_ne_true hvalid

/-- A run of characters is decoded as a character exactly if it is a hexadecimal numeral of its code.
The numerals of surrogates and of numbers past the last code point are decoded as none. -/
theorem hexadecimal_codes_decoded (w : Text) :
    (∀ n, IsHexNumeral w n ↔
        w ≠ [] ∧ (∀ c ∈ w, isHexDigit c) ∧ Nat.ofDigits 16 (w.reverse.map hexValue) = n) ∧
      (∀ c, decodeHex? w = some c ↔ IsHexNumeral w c.toNat) ∧
      ∀ n, IsHexNumeral w n →
        ((decodeHex? w).isSome ↔ n < 0xD800 ∨ 0xDFFF < n ∧ n ≤ 0x10FFFF) := by
  refine ⟨fun n => ?_, fun c => ?_, fun n h => ?_⟩
  · rw [isHexNumeral_iff, ofDigits_eq_natOfDigits]
  · constructor
    · intro h
      obtain ⟨hne, hw⟩ := digits_of_decodeHex? h
      rw [decodeHex?_of_isHexDigit hne hw, Char.ofCode?_eq_some_iff] at h
      exact isHexNumeral_iff.mpr ⟨hne, hw, h⟩
    · intro h
      rw [decodeHex?_of_isHexDigit h.ne_nil h.forall_isHexDigit, h.ofDigits_eq]
      exact Char.ofCode?_eq_some_iff.mpr rfl
  · rw [decodeHex?_of_isHexDigit h.ne_nil h.forall_isHexDigit, h.ofDigits_eq, Char.isSome_ofCode?_iff]
    exact or_congr_right (and_congr_right fun _ => Nat.lt_succ_iff)

/-- Zeros and case make no difference, a surrogate is no character, and a number of more than 32 bits
is not taken for what is left of it in a word. -/
example : decodeHex? "0000000001f600".toList = some '😀' ∧
    decodeHex? "1F600".toList = some '😀' ∧ decodeHex? "d800".toList = none ∧
    decodeHex? "10000000041".toList = none := by decide +kernel

end EcmaLex
