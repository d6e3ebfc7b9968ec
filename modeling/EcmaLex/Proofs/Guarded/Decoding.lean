import EcmaLex.Proofs.Number.Parsing
import EcmaLex.Proofs.Slices

/-!
# Guarded decoding

A guarded definition takes its steps with operations that can fail: a slice at an offset that lies
outside of the text or inside of a character, a difference below zero, a lookup behind the end of a
table, a radix for which there are no digits. It gives nothing as soon as one of them does. The
decoding of codes and of numeric literals never fails, whatever text it is given.
-/

namespace EcmaLex

namespace Guarded

def minus? (m n : Nat) : Option Nat := if n ≤ m then some (m - n) else none

theorem minus?_eq {m n : Nat} (h : n ≤ m) : minus? m n = some (m - n) := if_pos h

def inRadix {α : Type} (radix : Nat) (a : α) : Option α :=
  if 2 ≤ radix ∧ radix ≤ 36 then some a else none

def decodeHex (digits : Text) : Option (Option Char) :=
  if digits.isEmpty || !digits.all isHexDigit then some none
  else do
    let code ← inRadix 16 (accumulate? 16 0 digits)
    return code.bind Char.ofCode?

theorem decodeHex_eq (digits : Text) : decodeHex digits = some (decodeHex? digits) := by
  unfold decodeHex decodeHex?
  split
  · rfl
  · rw [inRadix, if_pos (by decide)]
    rfl

def cutAt (p : Char → Bool) (t : Text) : Option (Text × Option Text) :=
  match t.findByte? p with
  | none => some (t, none)
  | some n => do
    let before ← t.upTo? n
    let behind ← t.from? (n + 1)
    return (before, some behind)

def isMark (c : Char) : Bool := c = 'e' || c = 'E'

def decimalValue [Primitives] (raw : Text) : Option Binary64 := do
  let (mantissa, exponent) ← cutAt isMark raw
  let (integer, fraction) ← cutAt (· = '.') mantissa
  let normalized := completeInteger integer ++ completeFraction (fraction.getD []) ++
    exponent.elim [] ('e' :: ·)
  return (Primitives.parseDecimal? normalized).getD .infinity

def radixValue [Primitives] (radix : Nat) (digits : Text) : Option Binary64 :=
  if digits.isEmpty then some .nan
  else inRadix radix ((Primitives.parseDigits? radix digits).getD .infinity)

def numberValue [Primitives] (raw : Text) : Option Binary64 :=
  match NumberForm.ofText raw with
  | .decimal => decimalValue raw
  | .legacyOctal => do radixValue 8 (← raw.from? 1)
  | form => do radixValue form.radix (← raw.from? 2)

theorem radixValue_eq [Primitives] {radix : Nat} (h : 2 ≤ radix ∧ radix ≤ 36) (t : Text) :
    radixValue radix t = some (EcmaLex.radixValue radix t) := by
  unfold radixValue EcmaLex.radixValue
  rw [inRadix, if_pos h, apply_ite some]

/-- A cut at a character of one byte takes it out. -/
theorem cutAt_cases {p : Char → Bool} (hp : ∀ c, p c → c.utf8Size = 1) (t : Text) :
    (cutAt p t = some (t, none) ∧ ∀ c ∈ t, p c = false) ∨
      ∃ a c u, t = a ++ c :: u ∧ (∀ d ∈ a, p d = false) ∧ p c ∧ cutAt p t = some (a, some u) := by
  rcases t.findByte?_cases p with ⟨hnone, hall⟩ | ⟨a, c, u, rfl, ha, hc, hsome⟩
  · refine .inl ⟨?_, hall⟩
    rw [cutAt, hnone]
  · refine .inr ⟨a, c, u, rfl, ha, hc, ?_⟩
    have hstands := (Text.StandsAt.start (a ++ c :: u)).behind.behind_cons
    rw [hp c hc, Nat.zero_add] at hstands
    rw [cutAt, hsome]
    simp [Text.upTo?_append, hstands.from?_eq]

theorem isMark_iff {c : Char} : isMark c = false ↔ c ≠ 'e' ∧ c ≠ 'E' := by simp [isMark]

/-- The mantissa of a decimal literal is an integer and a point with a fraction behind it, if there
is one. -/
theorem exists_cutAt_point {m : Text} (hm : ∀ c ∈ m, isMark c = false) :
    ∃ i p f, cutAt (· = '.') m = some (i, f) ∧ m = i ++ p ∧
      (∀ c ∈ i, c ≠ 'e' ∧ c ≠ 'E' ∧ c ≠ '.') ∧
      (p = [] ∨ ∃ g, p = '.' :: g ∧ ∀ c ∈ g, c ≠ 'e' ∧ c ≠ 'E') ∧ p.drop 1 = f.getD [] := by
  have hpoint : ∀ c : Char, decide (c = '.') → c.utf8Size = 1 := by
    intro c hc
    rw [of_decide_eq_true hc]
    rfl
  rcases cutAt_cases hpoint m with ⟨hcut, hnone⟩ | ⟨i, c, g, rfl, hi, hc, hcut⟩
  · refine ⟨m, [], none, hcut, (List.append_nil m).symm, fun c hc => ?_, .inl rfl, rfl⟩
    have hmark := isMark_iff.mp (hm c hc)
    exact ⟨hmark.1, hmark.2, of_decide_eq_false (hnone c hc)⟩
  · obtain rfl := of_decide_eq_true hc
    refine ⟨i, '.' :: g, some g, hcut, rfl, fun c hc => ?_, .inr ⟨g, rfl, fun c hc => ?_⟩, rfl⟩
    · have hmark := isMark_iff.mp (hm c (List.mem_append_left _ hc))
      exact ⟨hmark.1, hmark.2, of_decide_eq_false (hi c hc)⟩
    · exact isMark_iff.mp (hm c (by simp [hc]))

theorem decimalValue_eq [Primitives] (raw : Text) :
    decimalValue raw = some ((Primitives.parseDecimal? (completeDecimal raw)).getD .infinity) := by
  have hmark : ∀ c, isMark c → c = 'e' ∨ c = 'E' := fun c hc => by simpa [isMark] using hc
  have hsize : ∀ c, isMark c → c.utf8Size = 1 := by
    intro c hc
    rcases hmark c hc with rfl | rfl <;> rfl
  rcases cutAt_cases hsize raw with ⟨hraw, hnone⟩ | ⟨m, c, x, rfl, hm, hc, hraw⟩
  · obtain ⟨i, p, f, hcut, hip, hi, hp, hfraction⟩ := exists_cutAt_point hnone
    have hcomplete := completeDecimal_of_split (e := []) hi hp (by simp)
    rw [List.append_nil, ← hip, hfraction] at hcomplete
    simp only [decimalValue, hraw, hcut, hcomplete, Option.bind_eq_bind, Option.bind_some]
    rfl
  · obtain ⟨i, p, f, hcut, rfl, hi, hp, hfraction⟩ := exists_cutAt_point hm
    have hcomplete := completeDecimal_of_split (e := c :: x) hi hp (by simpa using hmark c hc)
    rw [hfraction] at hcomplete
    simp only [decimalValue, hraw, hcut, hcomplete, Option.bind_eq_bind, Option.bind_some]
    rfl

/-- What stands before the digits of a literal that is not decimal takes up one byte or two. -/
theorem ofText_cases (raw : Text) : NumberForm.ofText raw = .decimal ∨
    (NumberForm.ofText raw = .legacyOctal ∧ ∃ u, raw = '0' :: u) ∨
      ∃ c u, raw = '0' :: c :: u ∧ (c, NumberForm.ofText raw) ∈ NumberLiteral.radixLetters := by
  unfold NumberForm.ofText
  split
  · rename_i form hform
    obtain ⟨c, u, rfl, hc⟩ := NumberLiteral.announced?_eq_some hform
    exact .inr (.inr ⟨c, u, rfl, NumberLiteral.ofLetter?_eq_some_iff.mp hc⟩)
  · split
    · split
      · exact .inr (.inl ⟨rfl, _, rfl⟩)
      · exact .inl rfl
    · exact .inl rfl

theorem numberValue_eq [Primitives] (raw : Text) :
    numberValue raw = some (EcmaLex.numberValue raw) := by
  rcases ofText_cases raw with hform | ⟨hform, u, rfl⟩ | ⟨c, u, rfl, hc⟩
  · rw [numberValue, EcmaLex.numberValue, hform]
    exact decimalValue_eq raw
  · have hfrom : Text.from? ('0' :: u) 1 = some u := (Text.StandsAt.start _).behind_cons.from?_eq
    rw [numberValue, EcmaLex.numberValue, hform]
    simp only [hfrom, Option.bind_eq_bind, Option.bind_some]
    exact radixValue_eq (by decide) u
  · have hsize : ∀ p ∈ NumberLiteral.radixLetters, p.1.utf8Size = 1 := by decide
    have hfrom : Text.from? ('0' :: c :: u) 2 = some u := by
      have hstands := (Text.StandsAt.start ('0' :: c :: u)).behind_cons.behind_cons
      rw [hsize _ hc] at hstands
      exact hstands.from?_eq
    rw [numberValue, EcmaLex.numberValue]
    rcases NumberLiteral.forms_of_radixLetters hc with hform | hform | hform <;>
    · rw [hform]
      simp only [hfrom, Option.bind_eq_bind, Option.bind_some]
      exact radixValue_eq (by decide) u

end Guarded

end EcmaLex
