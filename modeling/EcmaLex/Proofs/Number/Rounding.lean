import EcmaLex.Number.Binary64
import Mathlib.Algebra.Order.Field.Power
import Mathlib.Algebra.Order.Field.Rat
import Mathlib.Tactic.Linarith
import Mathlib.Tactic.NormNum
import Mathlib.Tactic.Positivity
import Mathlib.Tactic.Ring

/-!
# Rounding

A number is rounded to the double that is closest to it, and from the middle between two doubles to
the one with an even significand. Past the middle between the greatest double and the power of two
behind it a number is infinite. The doubles with one exponent are multiples of their distance, and a
number lies in the cell of one of them, which ends in the middle between the double and the next
ones. So it matters only on which side of some middles a number lies.
-/

namespace EcmaLex

namespace Binary64

def ulp (k : Nat) : ℚ := 2 ^ k / 2 ^ unitShift

def magnitude (m k : Nat) : ℚ := m * ulp k

/-- The middle between the greatest double and the next power of two. -/
def overflow : ℚ := 2 ^ 1024 - 2 ^ 970

structure IsDouble (m k : Nat) : Prop where
  lt : m < 2 ^ 53
  normal : k = 0 ∨ 2 ^ 52 ≤ m
  le : k ≤ maxExponent

/-- No double is closer to a number. -/
inductive Closest (v : ℚ) : Binary64 → Prop where
  | infinite (hv : overflow ≤ v) : Closest v infinity
  | finite {m k : Nat} (hv : v < overflow) (hd : IsDouble m k)
      (hmin : ∀ m' k', IsDouble m' k' → |v - magnitude m k| ≤ |v - magnitude m' k'|) :
      Closest v (finite false m k)

def TiesToEven (v : ℚ) (x : Binary64) : Prop :=
  ∀ m k m' k', x = finite false m k → IsDouble m' k' → magnitude m' k' ≠ magnitude m k →
    |v - magnitude m k| = |v - magnitude m' k'| → m % 2 = 0

structure Rounds (v : ℚ) (x : Binary64) : Prop where
  closest : Closest v x
  even : TiesToEven v x

def middle (n k : Nat) : ℚ := n * ulp k / 2

variable {v : ℚ} {m n k : Nat}

theorem ulp_pos (k : Nat) : 0 < ulp k := by
  unfold ulp
  positivity

theorem ulp_add (k d : Nat) : ulp (k + d) = 2 ^ d * ulp k := by
  unfold ulp
  rw [pow_add]
  ring

theorem ulp_le_ulp {k k' : Nat} (h : k ≤ k') : ulp k ≤ ulp k' := by
  obtain ⟨d, rfl⟩ := Nat.exists_eq_add_of_le h
  rw [ulp_add]
  exact le_mul_of_one_le_left (ulp_pos k).le (one_le_pow₀ one_le_two)

theorem middle_le_middle {n n' k k' : Nat} (hn : n ≤ n') (hk : k ≤ k') :
    middle n k ≤ middle n' k' := by
  have hn : (n : ℚ) ≤ n' := Nat.cast_le.mpr hn
  have hk := ulp_le_ulp hk
  have hpos := ulp_pos k
  unfold middle
  gcongr

theorem middle_le_middle_iff {n n' k : Nat} : middle n k ≤ middle n' k ↔ n ≤ n' := by
  have hpos := ulp_pos k
  unfold middle
  rw [div_le_div_iff_of_pos_right two_pos, mul_le_mul_iff_left₀ hpos, Nat.cast_le]

theorem overflow_eq : overflow = middle (2 ^ 54 - 1) maxExponent := by
  have hsplit : (2 : ℚ) ^ 1024 = 2 ^ 970 * 2 ^ 54 := by rw [← pow_add]
  have hexponent : (2 : ℚ) ^ maxExponent = 2 ^ 970 * 2 * 2 ^ unitShift := by
    rw [← pow_succ, ← pow_add]
    rfl
  have hpos : (2 : ℚ) ^ unitShift ≠ 0 := by positivity
  rw [overflow, middle, ulp, hexponent, hsplit, mul_div_cancel_right₀ _ hpos]
  generalize (2 : ℚ) ^ 970 = a
  norm_num
  ring

theorem overflow_pos : 0 < overflow := by
  rw [overflow_eq, middle]
  have hpos := ulp_pos maxExponent
  positivity

theorem Closest.ne_nan {x : Binary64} (h : Closest v x) : x ≠ nan := by
  cases h with
  | infinite => simp [infinity]
  | finite => simp

theorem Closest.eq_infinity_iff {x : Binary64} (h : Closest v x) :
    x = infinity ↔ overflow ≤ v := by
  cases h with
  | infinite hv => exact iff_of_true rfl hv
  | finite hv => exact iff_of_false (by simp [infinity]) (not_le.mpr hv)

theorem Closest.isFinite_eq_false_iff {x : Binary64} (h : Closest v x) :
    x.isFinite = false ↔ x = infinity := by
  cases h with
  | infinite => simp [isFinite, infinity]
  | finite => simp [isFinite, infinity]

theorem le_abs_sub_multiples {u : ℚ} (hu : 0 < u) {m j : Nat} (hne : j ≠ m) :
    u ≤ |(m * u - j * u : ℚ)| := by
  have hone : (1 : ℚ) ≤ |(m : ℚ) - j| := by
    have hint : (1 : ℤ) ≤ |(m : ℤ) - j| := Int.one_le_abs (by omega)
    exact_mod_cast hint
  calc u = 1 * u := (one_mul u).symm
    _ ≤ |(m : ℚ) - j| * u := by gcongr
    _ = |(m * u - j * u : ℚ)| := by rw [← sub_mul, abs_mul, abs_of_pos hu]

theorem abs_sub_le_multiple {u : ℚ} (hu : 0 < u) (hm : |v - m * u| ≤ u / 2) (j : Nat) :
    |v - m * u| ≤ |v - j * u| := by
  by_cases hj : j = m
  · rw [hj]
  · have hapart := le_abs_sub_multiples hu hj
    have htriangle := abs_sub_le (m * u) v (j * u)
    rw [abs_sub_comm (m * u) v] at htriangle
    linarith

theorem abs_sub_eq_of_tie {u : ℚ} (hu : 0 < u) (hm : |v - m * u| ≤ u / 2) {j : Nat} (hj : j ≠ m)
    (htie : |v - m * u| = |v - j * u|) : |v - m * u| = u / 2 := by
  have hapart := le_abs_sub_multiples hu hj
  have htriangle := abs_sub_le (m * u) v (j * u)
  rw [abs_sub_comm (m * u) v] at htriangle
  linarith

/-- The doubles with a lesser exponent are less than all others, and these are multiples. -/
theorem IsDouble.multiple_or_lt {m' k' : Nat} (h : IsDouble m' k') (k : Nat) :
    (∃ j : Nat, magnitude m' k' = j * ulp k) ∨ 0 < k ∧ magnitude m' k' < 2 ^ 52 * ulp k := by
  rcases le_or_gt k k' with hk | hk
  · obtain ⟨d, rfl⟩ := Nat.exists_eq_add_of_le hk
    refine .inl ⟨m' * 2 ^ d, ?_⟩
    rw [magnitude, ulp_add]
    push_cast
    ring
  · have hm' : (m' : ℚ) < 2 ^ 53 := by exact_mod_cast h.lt
    have hulp : 2 * ulp k' ≤ ulp k := by
      have hnext := ulp_le_ulp (Nat.succ_le_of_lt hk)
      rwa [Nat.succ_eq_add_one, ulp_add, pow_one] at hnext
    refine .inr ⟨by omega, ?_⟩
    calc magnitude m' k' < 2 ^ 53 * ulp k' := mul_lt_mul_of_pos_right hm' (ulp_pos k')
      _ = 2 ^ 52 * (2 * ulp k') := by ring
      _ ≤ 2 ^ 52 * ulp k := by gcongr

/-- A number lies between the middles around a multiple of the distance for its exponent. -/
structure Cell (v : ℚ) (m k : Nat) : Prop where
  le : m ≤ 2 ^ 53
  normal : k = 0 ∨ middle (2 ^ 53) k ≤ v
  lower : middle (2 * m - 1) k ≤ v
  upper : v ≤ middle (2 * m + 1) k

def EndsEven (v : ℚ) (m k : Nat) : Prop :=
  v = middle (2 * m - 1) k ∨ v = middle (2 * m + 1) k → m % 2 = 0

def ofMultiple (m k : Nat) : Binary64 :=
  let (m, k) := if m = 2 <<< fractionBits then (1 <<< fractionBits, k + 1) else (m, k)
  if k > maxExponent then infinity else finite false m k

/-- The double of the cell that a number lies in, or infinity. The number is no end of the cell of
an odd multiple. -/
inductive Rounded (v : ℚ) : Binary64 → Prop where
  | infinite (hv : overflow ≤ v) : Rounded v infinity
  | finite {m k : Nat} (hv : v < overflow) (hcell : Cell v m k) (heven : EndsEven v m k) :
      Rounded v (ofMultiple m k)

namespace Cell

theorem abs_sub_le (h : Cell v m k) : |v - magnitude m k| ≤ ulp k / 2 := by
  have hlower := h.lower
  have hupper := h.upper
  have hcast : (2 * m : ℚ) - 1 ≤ ((2 * m - 1 : Nat) : ℚ) := by
    have hint : (2 * m : ℤ) - 1 ≤ ((2 * m - 1 : Nat) : ℤ) := by omega
    exact_mod_cast hint
  have hpos := ulp_pos k
  have hmul := mul_le_mul_of_nonneg_right hcast hpos.le
  unfold middle at hlower hupper
  push_cast at hupper
  rw [abs_le, magnitude]
  constructor <;> linarith

theorem le_exponent (h : Cell v m k) (hv : v < overflow) : k ≤ maxExponent := by
  by_contra hk
  rcases h.normal with h0 | hnormal
  · omega
  · have hbeyond : overflow ≤ middle (2 ^ 53) k := by
      have hmono : middle (2 ^ 53) (maxExponent + 1) ≤ middle (2 ^ 53) k :=
        middle_le_middle le_rfl (by omega)
      have hnext : middle (2 ^ 54) maxExponent = middle (2 ^ 53) (maxExponent + 1) := by
        unfold middle
        rw [ulp_add]
        push_cast
        ring
      have hless : middle (2 ^ 54 - 1) maxExponent ≤ middle (2 ^ 54) maxExponent :=
        middle_le_middle (by omega) le_rfl
      rw [overflow_eq]
      linarith
    linarith

theorem lt_exponent (h : Cell v (2 ^ 53) k) (hv : v < overflow) : k < maxExponent := by
  refine lt_of_le_of_ne (h.le_exponent hv) ?_
  rintro rfl
  have hlower := h.lower
  have hoverflow : overflow = middle (2 * 2 ^ 53 - 1) maxExponent := overflow_eq
  rw [← hoverflow] at hlower
  linarith

theorem normal_significand (h : Cell v m k) : k = 0 ∨ 2 ^ 52 ≤ m := by
  refine h.normal.imp_right fun hnormal => ?_
  have hle : 2 ^ 53 ≤ 2 * m + 1 := middle_le_middle_iff.mp (hnormal.trans h.upper)
  omega

/-- The multiple is a double, but for a significand that is one of the next exponent. -/
theorem exists_finite (h : Cell v m k) (hv : v < overflow) : ∃ m' k',
    ofMultiple m k = finite false m' k' ∧ IsDouble m' k' ∧ magnitude m' k' = magnitude m k ∧
      (m % 2 = 0 → m' % 2 = 0) := by
  have hcarry : 2 <<< fractionBits = 2 ^ 53 := by decide
  by_cases hm : m = 2 ^ 53
  · subst hm
    have hk := h.lt_exponent hv
    have hof : ofMultiple (2 ^ 53) k = finite false (2 ^ 52) (k + 1) := by
      rw [ofMultiple, hcarry, if_pos rfl]
      exact if_neg (by omega)
    refine ⟨2 ^ 52, k + 1, hof, ⟨by decide, .inr le_rfl, hk⟩, ?_, fun _ => by decide⟩
    rw [magnitude, magnitude, ulp_add]
    push_cast
    ring
  · have hk := h.le_exponent hv
    have hof : ofMultiple m k = finite false m k := by
      rw [ofMultiple, hcarry, if_neg hm]
      exact if_neg (by omega)
    have hle := h.le
    exact ⟨m, k, hof, ⟨by omega, h.normal_significand, hk⟩, rfl, id⟩

/-- Another double is a multiple too, or farther away. -/
theorem multiple_or_lt (h : Cell v m k) {m' k' : Nat} (hd : IsDouble m' k') :
    (∃ j : Nat, magnitude m' k' = j * ulp k) ∨
      |v - magnitude m k| < |v - magnitude m' k'| := by
  refine (hd.multiple_or_lt k).imp_right fun ⟨hk, hless⟩ => ?_
  have hnormal : 2 ^ 52 * ulp k ≤ v := by
    have hmiddle := h.normal.resolve_left (by omega)
    unfold middle at hmiddle
    push_cast at hmiddle
    linarith
  have hclose : |v - magnitude m k| ≤ |v - 2 ^ 52 * ulp k| := by
    exact_mod_cast abs_sub_le_multiple (ulp_pos k) h.abs_sub_le (2 ^ 52)
  rw [abs_of_nonneg (sub_nonneg.mpr hnormal)] at hclose
  rw [abs_of_nonneg (a := v - magnitude m' k') (by linarith)]
  exact hclose.trans_lt (by linarith)

theorem abs_sub_le_double (h : Cell v m k) {m' k' : Nat} (hd : IsDouble m' k') :
    |v - magnitude m k| ≤ |v - magnitude m' k'| := by
  rcases h.multiple_or_lt hd with ⟨j, hj⟩ | hless
  · rw [hj]
    exact abs_sub_le_multiple (ulp_pos k) h.abs_sub_le j
  · exact hless.le

/-- A number that is as close to another double is an end of its cell. -/
theorem end_of_tie (h : Cell v m k) {m' k' : Nat} (hd : IsDouble m' k')
    (hne : magnitude m' k' ≠ magnitude m k)
    (htie : |v - magnitude m k| = |v - magnitude m' k'|) :
    v = middle (2 * m - 1) k ∨ v = middle (2 * m + 1) k := by
  rcases h.multiple_or_lt hd with ⟨j, hj⟩ | hless
  · have hjm : j ≠ m := by
      rintro rfl
      exact hne hj
    rw [hj] at htie
    -- Both doubles are multiples of the same distance, so the number is half of it away.
    have hhalf : |v - magnitude m k| = ulp k / 2 :=
      abs_sub_eq_of_tie (ulp_pos k) h.abs_sub_le hjm htie
    have hlower := h.lower
    have hpos := ulp_pos k
    rw [magnitude] at hhalf
    unfold middle at hlower ⊢
    rcases abs_eq (by linarith) |>.mp hhalf with heq | heq
    · refine .inr ?_
      push_cast
      linarith
    · cases m with
      | zero =>
        simp only [Nat.cast_zero, zero_mul, mul_zero, Nat.zero_sub, zero_div] at heq hlower
        linarith
      | succ m =>
        refine .inl ?_
        have hcast : ((2 * (m + 1) - 1 : Nat) : ℚ) = 2 * m + 1 := by
          rw [show 2 * (m + 1) - 1 = 2 * m + 1 by omega]
          push_cast
          ring
        rw [hcast]
        push_cast at heq
        linarith
  · exact absurd htie hless.ne

end Cell

namespace Rounded

variable {x : Binary64}

theorem closest (h : Rounded v x) : Closest v x := by
  cases h with
  | infinite hv => exact .infinite hv
  | finite hv hcell =>
    obtain ⟨m', k', hof, hd, hmagnitude, -⟩ := hcell.exists_finite hv
    rw [hof]
    exact .finite hv hd fun _ _ hd' => hmagnitude ▸ hcell.abs_sub_le_double hd'

theorem tiesToEven (h : Rounded v x) : TiesToEven v x := by
  intro m' k' m'' k'' hx hd hne htie
  cases h with
  | infinite hv => simp [infinity] at hx
  | finite hv hcell heven =>
    obtain ⟨m₁, k₁, hof, -, hmagnitude, hparity⟩ := hcell.exists_finite hv
    rw [hof] at hx
    obtain ⟨-, rfl, rfl⟩ := Binary64.finite.inj hx
    rw [hmagnitude] at hne htie
    exact hparity (heven (hcell.end_of_tie hd hne htie))

theorem rounds (h : Rounded v x) : Rounds v x := ⟨h.closest, h.tiesToEven⟩

end Rounded

theorem divNearestEven_cases (num den : Nat) :
    (divNearestEven num den = num / den ∧ 2 * (num % den) ≤ den ∧
        (2 * (num % den) = den → num / den % 2 = 0)) ∨
      (divNearestEven num den = num / den + 1 ∧ den ≤ 2 * (num % den) ∧
        (2 * (num % den) = den → (num / den + 1) % 2 = 0)) := by
  simp only [divNearestEven, Bool.or_eq_true, Bool.and_eq_true, decide_eq_true_eq]
  split
  · exact .inr ⟨rfl, by omega, by omega⟩
  · exact .inl ⟨rfl, by omega, by omega⟩

/-- A quotient is rounded to an integer that is no more than one half away from it, and no odd one
where it is one half away. -/
theorem divNearestEven_bounds (num : Nat) {den : Nat} (hden : 0 < den) :
    (2 * divNearestEven num den - 1) * den ≤ 2 * num ∧
      2 * num ≤ (2 * divNearestEven num den + 1) * den ∧
      (2 * num = (2 * divNearestEven num den - 1) * den ∨
        2 * num = (2 * divNearestEven num den + 1) * den → divNearestEven num den % 2 = 0) := by
  have hdiv := Nat.div_add_mod num den
  have hmod := Nat.mod_lt num hden
  have hcases := divNearestEven_cases num den
  generalize num / den = q at *
  generalize num % den = r at *
  have hbelow : (2 * q - 1) * den = 2 * (den * q) - den := by
    rw [Nat.sub_mul, one_mul, mul_assoc, mul_comm q]
  have habove : (2 * q + 1) * den = 2 * (den * q) + den := by ring
  have hnext : (2 * (q + 1) + 1) * den = 2 * (den * q) + 3 * den := by ring
  have hsame : 2 * (q + 1) - 1 = 2 * q + 1 := by omega
  have hq : q = 0 ∨ den ≤ den * q := (Nat.eq_zero_or_pos q).imp_right (Nat.le_mul_of_pos_right den)
  rcases hcases with ⟨heq, hr, heven⟩ | ⟨heq, hr, heven⟩
  · rw [heq, hbelow, habove]
    refine ⟨by omega, by omega, ?_⟩
    rcases hq with rfl | hq
    · exact fun _ => rfl
    · exact fun _ => heven (by omega)
  · rw [heq, hsame, habove, hnext]
    exact ⟨by omega, by omega, fun _ => heven (by omega)⟩

section Quotients

variable {units den : Nat}

theorem middle_eq_div (n k : Nat) : middle n k = (n * 2 ^ k : Nat) / 2 / 2 ^ unitShift := by
  unfold middle ulp
  push_cast
  ring

theorem middle_le_div_iff (hden : 0 < den) (n k : Nat) :
    middle n k ≤ (units / den / 2 ^ unitShift : ℚ) ↔ n * (den * 2 ^ k) ≤ 2 * units := by
  have hpos : (0 : ℚ) < den := Nat.cast_pos.mpr hden
  have hunit : (0 : ℚ) < 2 ^ unitShift := by positivity
  rw [middle_eq_div, div_le_div_iff_of_pos_right hunit, div_le_div_iff₀ two_pos hpos]
  have hcast : ((n * 2 ^ k : Nat) : ℚ) * den ≤ units * 2 ↔ n * 2 ^ k * den ≤ units * 2 := by
    exact_mod_cast Iff.rfl
  rw [hcast, mul_comm units, mul_assoc, mul_comm (2 ^ k)]

theorem div_le_middle_iff (hden : 0 < den) (n k : Nat) :
    (units / den / 2 ^ unitShift : ℚ) ≤ middle n k ↔ 2 * units ≤ n * (den * 2 ^ k) := by
  have hpos : (0 : ℚ) < den := Nat.cast_pos.mpr hden
  have hunit : (0 : ℚ) < 2 ^ unitShift := by positivity
  rw [middle_eq_div, div_le_div_iff_of_pos_right hunit, div_le_div_iff₀ hpos two_pos]
  have hcast : (units : ℚ) * 2 ≤ (n * 2 ^ k : Nat) * den ↔ units * 2 ≤ n * 2 ^ k * den := by
    exact_mod_cast Iff.rfl
  rw [hcast, mul_comm units, mul_assoc n, mul_comm (2 ^ k)]

theorem div_eq_middle_iff (hden : 0 < den) (n k : Nat) :
    (units / den / 2 ^ unitShift : ℚ) = middle n k ↔ 2 * units = n * (den * 2 ^ k) := by
  rw [le_antisymm_iff, div_le_middle_iff hden, middle_le_div_iff hden]
  exact le_antisymm_iff.symm

/-- The bits of a quotient, but for the first 53, tell the distance of doubles there. -/
theorem bounds_of_log2 (hden : 0 < den) (hk : k = (units / den).log2 - fractionBits) :
    units < 2 ^ 53 * (den * 2 ^ k) ∧ (k = 0 ∨ 2 ^ 52 * (den * 2 ^ k) ≤ units) := by
  simp only [fractionBits] at hk
  refine ⟨?_, (Nat.eq_zero_or_pos k).imp_right fun hkpos => ?_⟩
  · have hbits : units / den < 2 ^ (53 + k) :=
      Nat.lt_log2_self.trans_le (Nat.pow_le_pow_right two_pos (by omega))
    have hunits := (Nat.div_lt_iff_lt_mul hden).mp hbits
    rwa [pow_add, mul_assoc, mul_comm (2 ^ k)] at hunits
  · have hlog : (units / den).log2 = 52 + k := by omega
    have hne : units / den ≠ 0 := by
      intro h
      rw [h, Nat.log2_zero] at hlog
      omega
    have hfirst : 2 ^ (52 + k) * den ≤ units :=
      (Nat.le_div_iff_mul_le hden).mp (hlog ▸ Nat.log2_self_le hne)
    rwa [pow_add, mul_assoc, mul_comm (2 ^ k)] at hfirst

/-- A quotient lies in the cell that its first bits tell. -/
theorem cell_divNearestEven (units : Nat) (hden : 0 < den)
    (hk : k = (units / den).log2 - fractionBits) :
    Cell (units / den / 2 ^ unitShift) (divNearestEven units (den <<< k)) k ∧
      EndsEven (units / den / 2 ^ unitShift) (divNearestEven units (den <<< k)) k := by
  rw [Nat.shiftLeft_eq]
  have hpos : 0 < den * 2 ^ k := by positivity
  obtain ⟨hlower, hupper, heven⟩ := divNearestEven_bounds units hpos
  obtain ⟨hless, hnormal⟩ := bounds_of_log2 hden hk
  refine ⟨⟨?_, ?_, ?_, ?_⟩, ?_⟩
  · have hcell : (2 * divNearestEven units (den * 2 ^ k) - 1) * (den * 2 ^ k) <
        2 ^ 54 * (den * 2 ^ k) := by omega
    have hle := Nat.lt_of_mul_lt_mul_right hcell
    omega
  · rw [middle_le_div_iff hden]
    exact hnormal.imp_right fun hfirst => by omega
  · exact (middle_le_div_iff hden _ _).mpr hlower
  · exact (div_le_middle_iff hden _ _).mpr hupper
  · exact fun hend => heven (hend.imp (div_eq_middle_iff hden _ _).mp
      (div_eq_middle_iff hden _ _).mp)

/-- The multiples of a lesser distance than the one of the greatest doubles are all finite. -/
theorem Cell.maxExponent_le (h : Cell v m k) (hv : overflow ≤ v) : maxExponent ≤ k := by
  by_contra hk
  have hmiddles := hv.trans h.upper
  have hle := hmiddles.trans (middle_le_middle le_rfl (Nat.le_sub_one_of_lt (not_le.mp hk)))
  have hdouble : middle (2 ^ 54 - 1) maxExponent =
      middle (2 * (2 ^ 54 - 1)) (maxExponent - 1) := by
    have hulp : ulp maxExponent = 2 ^ 1 * ulp (maxExponent - 1) := ulp_add _ 1
    unfold middle
    rw [hulp]
    push_cast
    ring
  rw [overflow_eq, hdouble, middle_le_middle_iff] at hle
  have hm := h.le
  omega

/-- The middle behind the greatest double ends the cell of an odd multiple. -/
theorem Cell.eq_of_overflow (h : Cell v m maxExponent) (heven : EndsEven v m maxExponent)
    (hv : overflow ≤ v) : m = 2 ^ 53 := by
  have hmiddles := hv.trans h.upper
  rw [overflow_eq] at hv hmiddles
  rw [middle_le_middle_iff] at hmiddles
  have hm := h.le
  have hne : m ≠ 2 ^ 53 - 1 := by
    rintro rfl
    have htop : v = middle (2 * (2 ^ 53 - 1) + 1) maxExponent := le_antisymm h.upper hv
    exact absurd (heven (.inr htop)) (by decide)
  omega

theorem rounded_ofMultiple (h : Cell v m k) (heven : EndsEven v m k) :
    Rounded v (ofMultiple m k) := by
  rcases lt_or_ge v overflow with hv | hv
  · exact .finite hv h heven
  · have hcarry : 2 <<< fractionBits = 2 ^ 53 := by decide
    have hk := h.maxExponent_le hv
    have hinfinity : ofMultiple m k = infinity := by
      by_cases hm : m = 2 ^ 53
      · rw [ofMultiple, hcarry, if_pos hm]
        exact if_pos (by omega)
      · have hne : k ≠ maxExponent := by
          rintro rfl
          exact hm (h.eq_of_overflow heven hv)
        rw [ofMultiple, hcarry, if_neg hm]
        exact if_pos (by omega)
    exact hinfinity ▸ .infinite hv

/-- A quotient is rounded once. -/
theorem rounded_ofRatio (num : Nat) (hden : 0 < den) :
    Rounded (num / den : ℚ) (ofRatio num den) := by
  obtain ⟨units, hunits⟩ : ∃ units, num <<< unitShift = units := ⟨_, rfl⟩
  obtain ⟨hcell, heven⟩ := cell_divNearestEven units hden rfl
  have hvalue : (units / den / 2 ^ unitShift : ℚ) = num / den := by
    rw [← hunits, Nat.shiftLeft_eq]
    push_cast
    rw [div_right_comm, mul_div_cancel_right₀ _ (by positivity)]
  have hratio : ofRatio num den = ofMultiple
      (divNearestEven units (den <<< ((units / den).log2 - fractionBits)))
      ((units / den).log2 - fractionBits) := by
    rw [ofRatio, hunits]
    rfl
  rw [hvalue] at hcell heven
  rw [hratio]
  exact rounded_ofMultiple hcell heven

end Quotients

def ofScaled (b top low n : Nat) (e : Int) : Binary64 :=
  if n = 0 then zero
  else if e ≥ top then infinity
  else if e ≤ -(n.log2 + low : Int) then zero
  else match e with
    | .ofNat k => ofRatio (n * b ^ k) 1
    | .negSucc k => ofRatio n (b ^ (k + 1))

theorem ofDecimal_eq_ofScaled (n : Nat) (e : Int) : ofDecimal n e = ofScaled 10 310 331 n e := rfl

theorem ofBinary_eq_ofScaled (n : Nat) (e : Int) : ofBinary n e = ofScaled 2 1024 1076 n e := by
  cases e with
  | ofNat k => simp only [ofBinary, ofScaled, Nat.shiftLeft_eq]; rfl
  | negSucc k => simp only [ofBinary, ofScaled, Nat.shiftLeft_eq, one_mul]; rfl

theorem rounded_zero (hv : 0 ≤ v) (h : v ≤ middle 1 0) : Rounded v zero := by
  have hless : v < overflow := by
    have hmiddles : middle 1 0 < middle (2 ^ 54 - 1) 0 :=
      lt_of_not_ge fun hle => absurd (middle_le_middle_iff.mp hle) (by decide)
    have hmono : middle (2 ^ 54 - 1) 0 ≤ middle (2 ^ 54 - 1) maxExponent :=
      middle_le_middle le_rfl (Nat.zero_le _)
    rw [overflow_eq]
    linarith
  have hcell : Cell v 0 0 := ⟨by decide, .inl rfl, by simpa [middle] using hv, h⟩
  exact Rounded.finite hless hcell fun _ => rfl

/-- The inverse of a great power of the base does not count. -/
theorem scaled_le_middle {b low n : Nat} (hb : 2 ≤ b) (hlow : 2 ^ 1076 ≤ b ^ low) {e : Int}
    (he : e ≤ -(n.log2 + low : Int)) : (n * (b : ℚ) ^ e : ℚ) ≤ middle 1 0 := by
  have hbpos : (0 : ℚ) < b := by exact_mod_cast (by omega : 0 < b)
  have hone : (1 : ℚ) ≤ b := by exact_mod_cast (by omega : 1 ≤ b)
  have hpower : (b : ℚ) ^ e ≤ ((b : ℚ) ^ (n.log2 + low))⁻¹ := by
    rw [← zpow_natCast, ← zpow_neg]
    exact zpow_le_zpow_right₀ hone (by push_cast; exact he)
  have hn : (n : ℚ) ≤ 2 * (b : ℚ) ^ n.log2 := by
    have hless : n < 2 ^ (n.log2 + 1) := Nat.lt_log2_self
    have hbase : 2 ^ n.log2 ≤ b ^ n.log2 := Nat.pow_le_pow_left hb _
    have hnat : n ≤ 2 * b ^ n.log2 := by
      rw [pow_succ] at hless
      omega
    exact_mod_cast hnat
  have hmiddle : middle 1 0 = 2 * ((2 : ℚ) ^ 1076)⁻¹ := by
    have hexponent : 1076 = 2 + unitShift := rfl
    have hsplit : (2 : ℚ) ^ 1076 = 2 ^ 2 * 2 ^ unitShift := by rw [hexponent, pow_add]
    rw [middle, ulp, hsplit, mul_inv]
    push_cast
    ring
  have hcast : (2 : ℚ) ^ 1076 ≤ (b : ℚ) ^ low := by exact_mod_cast hlow
  calc (n * (b : ℚ) ^ e : ℚ)
      ≤ 2 * (b : ℚ) ^ n.log2 * ((b : ℚ) ^ (n.log2 + low))⁻¹ := by gcongr
    _ = 2 * ((b : ℚ) ^ low)⁻¹ := by
      rw [pow_add, mul_inv, mul_assoc, ← mul_assoc ((b : ℚ) ^ n.log2),
        mul_inv_cancel₀ (by positivity), one_mul]
    _ ≤ 2 * ((2 : ℚ) ^ 1076)⁻¹ := by gcongr
    _ = middle 1 0 := hmiddle.symm

/-- The great powers of the base are infinite. -/
theorem overflow_le_scaled {b top n : Nat} (hb : 2 ≤ b) (htop : 2 ^ 1024 ≤ b ^ top) (hn : n ≠ 0)
    {e : Int} (he : e ≥ top) : overflow ≤ n * (b : ℚ) ^ e := by
  have hone : (1 : ℚ) ≤ b := by exact_mod_cast (by omega : 1 ≤ b)
  have hpower : (b : ℚ) ^ top ≤ (b : ℚ) ^ e := by
    rw [← zpow_natCast]
    exact zpow_le_zpow_right₀ hone he
  have hcast : (2 : ℚ) ^ 1024 ≤ (b : ℚ) ^ top := by exact_mod_cast htop
  have hn : (1 : ℚ) ≤ n := by exact_mod_cast Nat.one_le_iff_ne_zero.mpr hn
  have hless : overflow ≤ 2 ^ 1024 := sub_le_self _ (by positivity)
  calc overflow ≤ (b : ℚ) ^ e := hless.trans (hcast.trans hpower)
    _ ≤ n * (b : ℚ) ^ e := le_mul_of_one_le_left (by positivity) hn

theorem rounded_ofScaled {b top low : Nat} (hb : 2 ≤ b) (htop : 2 ^ 1024 ≤ b ^ top)
    (hlow : 2 ^ 1076 ≤ b ^ low) (n : Nat) (e : Int) :
    Rounded (n * (b : ℚ) ^ e) (ofScaled b top low n e) := by
  unfold ofScaled
  split
  · rename_i hn
    refine rounded_zero (by positivity) ?_
    rw [hn, Nat.cast_zero, zero_mul, middle]
    exact div_nonneg (mul_nonneg (Nat.cast_nonneg _) (ulp_pos 0).le) two_pos.le
  rename_i hn
  split
  · rename_i he
    exact .infinite (overflow_le_scaled hb htop hn he)
  split
  · rename_i he
    exact rounded_zero (by positivity) (scaled_le_middle hb hlow he)
  split
  · rename_i k _ _
    have hvalue : (n * (b : ℚ) ^ (Int.ofNat k) : ℚ) = ((n * b ^ k : Nat) : ℚ) / (1 : Nat) := by
      rw [Int.ofNat_eq_natCast, zpow_natCast]
      push_cast
      rw [div_one]
    rw [hvalue]
    exact rounded_ofRatio _ one_pos
  · rename_i k _ _
    have hvalue : (n * (b : ℚ) ^ (Int.negSucc k) : ℚ) = (n : ℚ) / (b ^ (k + 1) : Nat) := by
      rw [zpow_negSucc]
      push_cast
      rw [div_eq_mul_inv]
    rw [hvalue]
    exact rounded_ofRatio _ (by positivity)

theorem rounded_ofDecimal (n : Nat) (e : Int) :
    Rounded (n * (10 : ℚ) ^ e) (ofDecimal n e) := by
  rw [ofDecimal_eq_ofScaled]
  exact_mod_cast rounded_ofScaled (b := 10) (by decide) (by decide +kernel) (by decide +kernel) n e

theorem rounded_ofBinary (n : Nat) (e : Int) : Rounded (n * (2 : ℚ) ^ e) (ofBinary n e) := by
  rw [ofBinary_eq_ofScaled]
  exact_mod_cast rounded_ofScaled (b := 2) (by decide) (by decide +kernel) (by decide +kernel) n e

end Binary64

end EcmaLex
