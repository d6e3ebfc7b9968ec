import EcmaLex.Proofs.Number.Following
import EcmaLex.Proofs.Number.Numeral
import EcmaLex.Proofs.Number.Parsing

/-!
# Values of numeric literals

Every literal denotes a numeral in the radix of its form, and what is handed to the conversion is a
text of that numeral. So its value is the closest double: only the letter of a radix without digits
has no value, only what is past the greatest double is infinite, and no conversion fails.
-/

namespace EcmaLex

open Binary64 (Rounds overflow)
open NumberLiteral (IsExponent IsLiteral IsMantissa eq_zero_of_announced forms_of_radixLetters
  isLiteral_extent ofLetter?_eq_some_iff radixLetters)
open Primitives (RoundsToNearest parseDecimal? parseDigits?)

def IsLegacyOctal (raw : Text) : Prop :=
  ∃ ds : Text, ds ≠ [] ∧ (∀ d ∈ ds, isDigitOf 8 d) ∧ raw = '0' :: ds

/-- The form of a literal and the numeral that it denotes. -/
inductive Denotes : Text → NumberForm → Numeral → Prop where
  | radix {c : Char} {form : NumberForm} {ds : Text} (hc : (c, form) ∈ radixLetters)
      (hd : ∀ d ∈ ds, isDigitOf form.radix d) : Denotes ('0' :: c :: ds) form ⟨ds, [], 0⟩
  | legacy {ds : Text} (hne : ds ≠ []) (hd : ∀ d ∈ ds, isDigitOf 8 d) :
      Denotes ('0' :: ds) .legacyOctal ⟨ds, [], 0⟩
  | decimal {m i f e : Text} {n : Int} (hm : IsMantissa m i f) (he : IsExponent e n)
      (hl : ¬ IsLegacyOctal (m ++ e)) : Denotes (m ++ e) .decimal ⟨i, f, n⟩

theorem exists_denotes {raw : Text} (h : IsLiteral raw) : ∃ form num, Denotes raw form num := by
  cases h with
  | radix hc hd => exact ⟨_, _, .radix hc hd⟩
  | @decimal m i f e n hm he =>
    by_cases hl : IsLegacyOctal (m ++ e)
    · obtain ⟨ds, hne, hd, hraw⟩ := hl
      rw [hraw]
      exact ⟨_, _, .legacy hne hd⟩
    · exact ⟨_, _, .decimal hm he hl⟩

def convertedText (raw : Text) : NumberForm → Text
  | .decimal => completeDecimal raw
  | .legacyOctal => raw.drop 1
  | _ => raw.drop 2

/-- What the conversion makes of a literal. -/
def converted? [Primitives] (raw : Text) (form : NumberForm) : Option Binary64 :=
  if form = .decimal then parseDecimal? (convertedText raw form)
  else parseDigits? form.radix (convertedText raw form)

theorem isDigitOf_eight_of_radixLetters {c : Char} {form : NumberForm}
    (h : (c, form) ∈ radixLetters) : isDigitOf 8 c = false := by
  have hall : ∀ p ∈ radixLetters, isDigitOf 8 p.1 = false := by decide
  exact hall _ h

namespace Denotes

variable {raw : Text} {form : NumberForm} {num : Numeral}

theorem ofText_eq (h : Denotes raw form num) : NumberForm.ofText raw = form := by
  cases h with
  | radix hc =>
    have hannounced := ofLetter?_eq_some_iff.mpr hc
    simp only [NumberForm.ofText, NumberForm.announced?, hannounced]
  | @legacy ds hne hd =>
    obtain ⟨d, ds, rfl⟩ := List.exists_cons_of_ne_nil hne
    have hnone : NumberForm.announced? ('0' :: d :: ds) = none := by
      rw [Option.eq_none_iff_forall_ne_some]
      intro form hform
      have hletter := isDigitOf_eight_of_radixLetters (ofLetter?_eq_some_iff.mp hform)
      simp [hd d List.mem_cons_self] at hletter
    have hall : (d :: ds).all (isDigitOf 8) := List.all_eq_true.mpr hd
    simp only [NumberForm.ofText, hnone, hall, List.isEmpty_cons, Bool.not_false, Bool.and_self,
      if_true]
  | @decimal m i f e n hm he hl =>
    have hnone : NumberForm.announced? (m ++ e) = none := by
      rw [Option.eq_none_iff_forall_ne_some]
      intro form hform
      obtain ⟨rfl, rfl⟩ := eq_zero_of_announced (t := []) hm he (by rwa [List.append_nil])
      simp [NumberForm.announced?] at hform
    simp only [NumberForm.ofText, hnone]
    split
    · rename_i digits hraw
      refine if_neg fun hdigits => hl ⟨digits, ?_⟩
      simpa [hraw] using hdigits
    · rfl

theorem isDigitOf (h : Denotes raw form num) :
    ∀ c ∈ num.integer ++ num.fraction, isDigitOf form.radix c := by
  intro c hc
  cases h with
  | radix _ hd => exact hd c (by simpa using hc)
  | legacy _ hd => exact hd c (by simpa using hc)
  | decimal hm _ _ => exact isDigitOf_of_isDigit le_rfl (hm.isDigit c hc)

/-- Only the letter of a radix has no digits behind it. -/
theorem digits_eq_nil_iff (h : Denotes raw form num) : num.integer ++ num.fraction = [] ↔
    ∃ c, (c, form) ∈ radixLetters ∧ raw = ['0', c] := by
  have hforms : ∀ c, (c, form) ∈ radixLetters → form = .hex ∨ form = .binary ∨ form = .octal :=
    fun _ => forms_of_radixLetters
  cases h with
  | @radix c _ ds hc hd =>
    rw [List.append_nil]
    constructor
    · rintro rfl
      exact ⟨c, hc, rfl⟩
    · rintro ⟨c', -, hraw⟩
      exact (List.cons.inj (List.cons.inj hraw).2).2
  | legacy hne _ =>
    rw [List.append_nil]
    exact iff_of_false hne fun ⟨c, hc, _⟩ => absurd (hforms c hc) (by simp)
  | decimal hm _ _ =>
    exact iff_of_false hm.digits_ne_nil fun ⟨c, hc, _⟩ => absurd (hforms c hc) (by simp)

end Denotes

theorem numberValue_of_form [Primitives] {raw : Text} {form : NumberForm}
    (h : NumberForm.ofText raw = form) :
    numberValue raw = if form ≠ .decimal ∧ convertedText raw form = [] then .nan
      else (converted? raw form).getD .infinity := by
  unfold numberValue converted?
  rw [h]
  cases form with
  | decimal => simp [convertedText]
  | _ => simp [convertedText, NumberForm.radix, radixValue]

namespace Denotes

variable {raw : Text} {form : NumberForm} {num : Numeral}

/-- A numeral in a radix that a letter announces, or an octal one in the old form. -/
theorem quantity_eq (h : Denotes raw form num) (hform : form ≠ .decimal) :
    convertedText raw form = num.integer ++ num.fraction ∧
      num.quantity form.radix = ofDigits form.radix (convertedText raw form) := by
  cases h with
  | @radix c _ ds hc hd =>
    have htext : convertedText ('0' :: c :: ds) form = ds := by
      rcases forms_of_radixLetters hc with rfl | rfl | rfl <;> rfl
    rw [htext, Numeral.quantity]
    simp
  | @legacy ds =>
    have htext : convertedText ('0' :: ds) .legacyOctal = ds := rfl
    rw [htext, Numeral.quantity]
    simp
  | decimal => exact absurd rfl hform

/-- A literal with digits is converted, and to the double closest to what it denotes. -/
theorem exists_converted [Primitives] (h : Denotes raw form num) (hp : RoundsToNearest)
    (hne : num.integer ++ num.fraction ≠ []) :
    ∃ x, converted? raw form = some x ∧ Rounds (num.quantity form.radix) x := by
  rcases eq_or_ne form .decimal with rfl | hform
  · cases h with
    | radix hc => exact absurd (forms_of_radixLetters hc) (by simp)
    | @decimal m i f e n hm he _ =>
      obtain ⟨x, hx, hrounds⟩ := hp.decimal (isDecimal_completeDecimal hm he)
      refine ⟨x, hx, ?_⟩
      rwa [Numeral.quantity, ofDigits_completeInteger] at hrounds
  · obtain ⟨htext, hquantity⟩ := h.quantity_eq hform
    have hradix : form.radix = 2 ∨ form.radix = 8 ∨ form.radix = 16 := by
      cases form with
      | decimal => exact absurd rfl hform
      | _ => simp [NumberForm.radix]
    rw [converted?, if_neg hform, hquantity, htext]
    exact hp.digits hradix hne h.isDigitOf

end Denotes

/-- What a literal with such a form and such a numeral is decoded to. -/
structure Decodes [Primitives] (raw : Text) (form : NumberForm) (num : Numeral) (x : Binary64) :
    Prop where
  nan : x = .nan ↔ ∃ c, (c, form) ∈ radixLetters ∧ raw = ['0', c]
  infinite : x = .infinity ↔ overflow ≤ num.quantity form.radix
  /-- No conversion fails. -/
  converted : x ≠ .nan → converted? raw form = some x
  rounds : x ≠ .nan → Rounds (num.quantity form.radix) x

namespace Denotes

variable {raw : Text} {form : NumberForm} {num : Numeral}

theorem decodes_nan [Primitives] (h : Denotes raw form num)
    (hnil : num.integer ++ num.fraction = []) :
    Decodes raw form num .nan where
  nan := iff_of_true rfl (h.digits_eq_nil_iff.mp hnil)
  infinite := by
    refine iff_of_false (by simp [Binary64.infinity]) ?_
    rw [Numeral.quantity, hnil, ofDigits_nil, Nat.cast_zero, zero_mul, not_le]
    exact Binary64.overflow_pos
  converted := fun hne => absurd rfl hne
  rounds := fun hne => absurd rfl hne

/-- The value of a literal is what it is decoded to, and infinite if it is not finite. -/
theorem decodes [Primitives] (h : Denotes raw form num) (hp : RoundsToNearest) :
    Decodes raw form num (numberValue raw) ∧ ((numberValue raw).isFinite = false ↔
      numberValue raw = .nan ∨ numberValue raw = .infinity) := by
  rw [numberValue_of_form h.ofText_eq]
  by_cases hnil : num.integer ++ num.fraction = []
  · obtain ⟨c, hc, rfl⟩ := h.digits_eq_nil_iff.mp hnil
    have hbare : form ≠ .decimal ∧ convertedText ['0', c] form = [] := by
      rcases forms_of_radixLetters hc with rfl | rfl | rfl
      · exact ⟨by simp, rfl⟩
      · exact ⟨by simp, rfl⟩
      · exact ⟨by simp, rfl⟩
    rw [if_pos hbare]
    exact ⟨h.decodes_nan hnil, by simp [Binary64.isFinite]⟩
  · obtain ⟨x, hconverted, hrounds⟩ := h.exists_converted hp hnil
    have hnan := hrounds.closest.ne_nan
    have htext : ¬ (form ≠ .decimal ∧ convertedText raw form = []) := by
      rintro ⟨hform, hempty⟩
      exact hnil ((h.quantity_eq hform).1.symm.trans hempty)
    rw [if_neg htext, hconverted, Option.getD_some, hrounds.closest.isFinite_eq_false_iff]
    exact ⟨{
      nan := iff_of_false hnan fun hbare => hnil (h.digits_eq_nil_iff.mpr hbare)
      infinite := hrounds.closest.eq_infinity_iff
      converted := fun _ => hconverted
      rounds := fun _ => hrounds }, by simp [hnan]⟩

theorem eq_legacyOctal_iff (h : Denotes raw form num) :
    form = .legacyOctal ↔ IsLegacyOctal raw := by
  cases h with
  | @radix c _ ds hc hd =>
    have hform : form ≠ .legacyOctal := by
      rcases forms_of_radixLetters hc with rfl | rfl | rfl <;> simp
    refine iff_of_false hform ?_
    rintro ⟨_, -, hoctal, hraw⟩
    have hletter := isDigitOf_eight_of_radixLetters hc
    rw [← (List.cons.inj hraw).2] at hoctal
    simp [hoctal c List.mem_cons_self] at hletter
  | legacy hne hd => exact iff_of_true rfl ⟨_, hne, hd, rfl⟩
  | decimal _ _ hl => exact iff_of_false (by simp) hl

end Denotes

namespace Lexer

variable {l l' : Lexer} {k : Token}

/-- The value of a number is what the literal is decoded to. The number is malformed, and reported
as a bad one, if and only if that is not finite. -/
theorem numbers_decoded [UnicodePrimitives] (hp : RoundsToNearest) (t : Text) (o : Options)
    (w : Bool) (n : Nat)
    (h : ((start t o w).calls n).2.next = some (k, l')) (hk : k.kind = .number) :
    ∃ (x : Binary64) (form : NumberForm) (num : Numeral),
      k.value = .number x ∧ numberValue k.raw = x ∧ NumberForm.ofText k.raw = form ∧
      Denotes k.raw form num ∧ (form = .legacyOctal ↔ IsLegacyOctal k.raw) ∧
      Decodes k.raw form num x ∧ (k.malformed ↔ x = .nan ∨ x = .infinity) ∧
      l'.reader.reported ["bad_number"] =
        ((start t o w).calls n).2.reader.reported ["bad_number"] ++
          (if k.malformed then [(Issue.badNumber k.raw).diagnostic k.start] else []) := by
  obtain ⟨u, context, hscan⟩ := exists_readsLexeme t o w n h
  obtain ⟨hs, hreads⟩ := hscan.number hk
  have hraw : k.raw = NumberLiteral.extent u := by rw [hreads.raw, Lexeme.raw_number]
  obtain ⟨form, num, hdenotes⟩ := exists_denotes (hraw ▸ isLiteral_extent hs)
  obtain ⟨hdecodes, hfinite⟩ := hdenotes.decodes hp
  refine ⟨numberValue k.raw, form, num, ?_, rfl, hdenotes.ofText_eq, hdenotes,
    hdenotes.eq_legacyOctal_iff, hdecodes, ?_, ?_⟩
  · rw [hreads.value, hraw]
    rfl
  · have hmalformed : k.malformed = !(numberValue k.raw).isFinite := by
      rw [hreads.malformed, hraw]
      rfl
    rw [hmalformed, Bool.not_eq_true', hfinite]
  · rw [hreads.reported _ (by decide), Lexeme.foundOf_number (by decide) (by decide), ← hreads.raw,
      ← hreads.malformed]
    cases k.malformed with
    | true => simp [Position.along]
    | false => simp

/-- A number past the greatest double is infinite, and reported. -/
theorem numbers_decoded_of_overflow :
    letI := UnicodePrimitives.exact
    RoundsToNearest ∧ ∃ k l',
      ((start "x=10e308".toList {} false).calls 2).2.next = some (k, l') ∧ k.kind = .number ∧
      k.value = .number .infinity ∧ k.malformed ∧
      ∃ (x : Binary64) (form : NumberForm) (num : Numeral),
        k.value = .number x ∧ numberValue k.raw = x ∧ NumberForm.ofText k.raw = form ∧
        Denotes k.raw form num ∧ (form = .legacyOctal ↔ IsLegacyOctal k.raw) ∧
        Decodes k.raw form num x ∧ (k.malformed ↔ x = .nan ∨ x = .infinity) ∧
        l'.reader.reported ["bad_number"] =
          ((start "x=10e308".toList {} false).calls 2).2.reader.reported ["bad_number"] ++
            (if k.malformed then [(Issue.badNumber k.raw).diagnostic k.start] else []) := by
  let _ := UnicodePrimitives.exact
  have hcall : ((start "x=10e308".toList {} false).calls 2).2.next.any fun (k, _) =>
      k.kind = .number && k.value = .number .infinity && k.malformed := by
    decide +kernel
  obtain ⟨⟨k, l'⟩, h, hfacts⟩ := (Option.any_eq_true _ _).mp hcall
  simp only [Bool.and_eq_true, decide_eq_true_eq] at hfacts
  obtain ⟨⟨hk, hvalue⟩, hmalformed⟩ := hfacts
  exact ⟨UnicodePrimitives.roundsToNearest_exact, k, l', h, hk, hvalue, hmalformed,
    numbers_decoded UnicodePrimitives.roundsToNearest_exact _ _ _ 2 h hk⟩

end Lexer

end EcmaLex
