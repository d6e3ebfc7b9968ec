import EcmaLex.Primitives.Standard
import EcmaLex.Proofs.Number.Digits
import EcmaLex.Proofs.Number.Grammar
import EcmaLex.Proofs.Number.Rounding

/-!
# Conversion of numerals

A numeral denotes a number, and what is relied on is that it is converted to the double closest to
that number. So is every numeral by a conversion that computes with all of its digits.
-/

namespace EcmaLex

open Binary64 (Rounds)
open NumberLiteral (IsDigits IsExponent IsMantissa IsSign signed takeWhile_digits
  takeWhile_of_head?)

def Numeral.quantity (radix : Nat) (n : Numeral) : ℚ :=
  ofDigits radix (n.integer ++ n.fraction) * (radix : ℚ) ^ (n.exponent - (n.fraction.length : Int))

/-- The text of a decimal numeral. A point in it has digits on both sides. -/
inductive IsDecimal : Text → Numeral → Prop where
  | whole {i e : Text} {n : Int} (hi : IsDigits i) (he : IsExponent e n) :
      IsDecimal (i ++ e) ⟨i, [], n⟩
  | pointed {i f e : Text} {n : Int} (hi : IsDigits i) (hf : IsDigits f) (he : IsExponent e n) :
      IsDecimal (i ++ '.' :: f ++ e) ⟨i, f, n⟩

/-- The texts of numerals are converted to the closest doubles, and to even ones on ties. -/
structure Primitives.RoundsToNearest [Primitives] : Prop where
  decimal : ∀ {t : Text} {n : Numeral}, IsDecimal t n →
    ∃ x, parseDecimal? t = some x ∧ Rounds (n.quantity 10) x
  digits : ∀ {radix : Nat} {ds : Text}, radix = 2 ∨ radix = 8 ∨ radix = 16 → ds ≠ [] →
    (∀ d ∈ ds, isDigitOf radix d) →
      ∃ x, parseDigits? radix ds = some x ∧ Rounds (ofDigits radix ds) x

namespace Numeral

theorem digits?_eq {radix : Nat} {ds : Text} (hne : ds ≠ []) (hd : ∀ d ∈ ds, isDigitOf radix d) :
    digits? radix ds = some (ofDigits radix ds) := by
  have hall : ds.all (isDigitOf radix) := List.all_eq_true.mpr hd
  simp [digits?, hne, hall]

theorem exponent?_eq {s ds : Text} (hs : IsSign s) (hd : IsDigits ds) :
    exponent? 10 (s ++ ds) = some (signed s ds) := by
  have hdigits : digits? 10 ds = some (ofDigits 10 ds) :=
    digits?_eq hd.nonempty fun d hmem => isDigitOf_of_isDigit le_rfl (hd.digits d hmem)
  rcases hs with rfl | rfl | rfl
  · obtain ⟨d, r, rfl⟩ := List.exists_cons_of_ne_nil hd.nonempty
    have hdigit := hd.digits d List.mem_cons_self
    have hplus : d ≠ '+' := by rintro rfl; simp at hdigit
    have hminus : d ≠ '-' := by rintro rfl; simp at hdigit
    rw [List.nil_append]
    unfold exponent?
    split
    · rename_i heq
      exact absurd (List.cons.inj heq).1 hplus
    · rename_i heq
      exact absurd (List.cons.inj heq).1 hminus
    · rw [hdigits]
      rfl
  · rw [List.singleton_append, exponent?, hdigits]
    rfl
  · rw [List.singleton_append, exponent?, hdigits]
    rfl

theorem ofText?_of_split (behind : Text) {t i f e : Text} {n : Int}
    (hinteger : t.takeWhile Char.isDigit = i) (hbehind : t.drop i.length = behind)
    (hfraction : fractionAt 10 behind = f)
    (hdrop : behind.drop ((if behind.head? = some '.' then 1 else 0) + f.length) = e)
    (hne : i ≠ [] ∨ f ≠ []) (he : IsExponent e n) : ofText? 10 t = some ⟨i, f, n⟩ := by
  have hdigit : isDigitOf 10 = Char.isDigit := funext isDigitOf_ten
  have hempty : (i.isEmpty && f.isEmpty) = false := by
    simpa [List.isEmpty_iff, or_iff_not_imp_left] using hne
  simp only [ofText?, hdigit, hinteger, hbehind, hfraction, hdrop, hempty, Bool.false_eq_true,
    if_false]
  cases he with
  | absent => rfl
  | written hc hs hd =>
    have hmark : ∀ c, c = 'e' ∨ c = 'E' → c.toLower = exponentMark 10 := by
      rintro c (rfl | rfl) <;> decide
    simp only [if_pos (hmark _ hc), exponent?_eq hs hd, Option.map_some]

/-- A mantissa with an exponent is a numeral. -/
theorem ofText?_decimal {m i f e : Text} {n : Int} (hm : IsMantissa m i f) (he : IsExponent e n) :
    ofText? 10 (m ++ e) = some ⟨i, f, n⟩ := by
  have hhead := he.head?_isDigit
  have hnone : e.takeWhile Char.isDigit = [] := takeWhile_of_head? fun c hc => (hhead c hc).1
  have hdigit : isDigitOf 10 = Char.isDigit := funext isDigitOf_ten
  cases hm with
  | whole hi =>
    have hpoint : e.head? ≠ some '.' := fun h => (hhead '.' h).2 rfl
    have hfraction : fractionAt 10 e = [] := by
      unfold fractionAt
      split
      · exact absurd rfl hpoint
      · rfl
    refine ofText?_of_split e ?_ (List.drop_left ..) hfraction ?_ (.inl hi.nonempty) he
    · rw [takeWhile_digits hi.digits, hnone, List.append_nil]
    · rw [if_neg hpoint]
      rfl
  | @pointed i f hi hf =>
    refine ofText?_of_split ('.' :: (f ++ e)) ?_ ?_ ?_ ?_ (.inl hi.nonempty) he
    · rw [List.append_assoc, takeWhile_digits hi.digits, List.cons_append,
        List.takeWhile_cons_of_neg (by decide), List.append_nil]
    · rw [List.append_assoc, List.drop_left, List.cons_append]
    · rw [fractionAt, hdigit, takeWhile_digits hf, hnone, List.append_nil]
    · rw [List.head?_cons, if_pos rfl, Nat.add_comm, List.drop_succ_cons, List.drop_left]
  | @fractional f hf =>
    refine ofText?_of_split ('.' :: (f ++ e)) ?_ ?_ ?_ ?_ (.inr hf.nonempty) he
    · rw [List.cons_append, List.takeWhile_cons_of_neg (by decide)]
    · rfl
    · rw [fractionAt, hdigit, takeWhile_digits hf.digits, hnone, List.append_nil]
    · rw [List.head?_cons, if_pos rfl, Nat.add_comm, List.drop_succ_cons, List.drop_left]

end Numeral

/-- The standard primitives, with a conversion that rounds once. -/
@[reducible] def UnicodePrimitives.exact : UnicodePrimitives :=
  { UnicodePrimitives.standard with
    parseDecimal? := fun t => (Numeral.ofText? 10 t).map fun n =>
      .ofDecimal (ofDigits 10 (n.integer ++ n.fraction)) (n.exponent - (n.fraction.length : Int))
    parseDigits? := fun radix t => (Numeral.digits? radix t).map (.ofBinary · 0) }

theorem UnicodePrimitives.roundsToNearest_exact :
    @Primitives.RoundsToNearest exact.toPrimitives := by
  refine @Primitives.RoundsToNearest.mk exact.toPrimitives ?_ ?_
  · intro t n h
    have htext : Numeral.ofText? 10 t = some n := by
      cases h with
      | whole hi he => exact Numeral.ofText?_decimal (.whole hi) he
      | pointed hi hf he => exact Numeral.ofText?_decimal (.pointed hi hf.digits) he
    refine ⟨_, congrArg (Option.map _) htext, ?_⟩
    have hrounded := Binary64.rounded_ofDecimal (ofDigits 10 (n.integer ++ n.fraction))
      (n.exponent - (n.fraction.length : Int))
    exact_mod_cast hrounded.rounds
  · intro radix ds _ hne hd
    refine ⟨_, congrArg (Option.map _) (Numeral.digits?_eq hne hd), ?_⟩
    have hrounded := Binary64.rounded_ofBinary (ofDigits radix ds) 0
    rw [zpow_zero, mul_one] at hrounded
    exact hrounded.rounds

end EcmaLex
